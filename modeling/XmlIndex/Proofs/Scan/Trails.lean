import XmlIndex.Lexer.Document
import XmlIndex.Proofs.Scan.ReferenceForms
import XmlIndex.Proofs.Text.Columns

/-! # What a cursor remembers

A fault without a place of its own is reported where the character read last begins, for that is the one place that a
cursor remembers. After each reading a single character stands between this place and the cursor. So when the next
character does not decode, it is the one before it that is reported.
-/
namespace XmlIndex
set_option autoImplicit false
open Grammar

def Fault.IsUndecodable : Fault → Prop
  | .encoding (.undecodable _) => True
  | _ => False

def Verdict.Blameless {σ α : Type} : Verdict σ α → Prop
  | .reject fault => ¬fault.IsUndecodable
  | _ => True

namespace Cursor
variable {c : Cursor} {text name : Chars} {ch : CodePoint}

/-- The cursor stands in its range, at a whole number of code units from its start. -/
structure Placed (c : Cursor) : Prop where
  start_le : c.start ≤ c.offset
  aligned : c.encoding.unitSize ∣ c.offset - c.start

/-- From the place that it remembers the cursor has come past a text. -/
structure Trails (c : Cursor) (text : Chars) : Prop where
  start_le : c.start ≤ c.last
  aligned : c.encoding.unitSize ∣ c.last - c.start
  reads : c.ReadsAt c.last text
  offset_eq : c.offset = c.last + c.encoding.size text

/-- What a cursor may have come past: nothing as yet, the character read last, or, after the name of an end tag, whose
bytes are only compared, the slash before it as well. -/
inductive Remembers (c : Cursor) : Chars → Prop
  | nothing : c.last = c.start → Remembers c []
  | character (ch : CodePoint) : Remembers c [ch]
  | endTag {name : Chars} : IsName name → Remembers c (CodePoint.slash :: name)

def Trailed (c : Cursor) : Prop :=
  ∃ text, c.Trails text ∧ c.Remembers text

theorem Trails.placed (hTrails : c.Trails text) : c.Placed := by
  have hOffset : c.offset - c.start = c.last - c.start + c.encoding.size text := by
    have hStart := hTrails.start_le
    have hEnd := hTrails.offset_eq
    omega
  refine ⟨hTrails.start_le.trans (hTrails.offset_eq ▸ Nat.le_add_right _ _), ?_⟩
  rw [hOffset]
  exact Nat.dvd_add hTrails.aligned Encoding.unitSize_dvd_size

theorem Trailed.placed (hTrailed : c.Trailed) : c.Placed := by
  obtain ⟨text, hTrails, -⟩ := hTrailed
  exact hTrails.placed

theorem trailed_atStart {doc : ByteArray} {start stop : Nat} {e : Encoding} : (atStart doc start stop e).Trailed := by
  refine ⟨[], ⟨Nat.le_refl _, ?_, trivial, rfl⟩, .nothing rfl⟩
  change _ ∣ start - start
  rw [Nat.sub_self]
  exact Nat.dvd_zero _

/-- Whatever was remembered before, now it is the character just read. -/
theorem Placed.trailed (hPlaced : c.Placed) (hReads : c.Reads [ch]) : (c.advance [ch]).Trailed := by
  refine ⟨[ch], ⟨?_, ?_, readsAt_advance.mpr hReads, ?_⟩, .character ch⟩
  · exact hPlaced.start_le
  · exact hPlaced.aligned
  · rw [offset_advance, encoding_advance, last_advance_singleton]

theorem Placed.advance (hPlaced : c.Placed) : (c.advance text).Placed := by
  have hOffset : c.offset + c.encoding.size text - c.start = c.offset - c.start + c.encoding.size text := by
    have hStart := hPlaced.start_le
    omega
  constructor
  · rw [start_advance, offset_advance]
    exact Nat.le_add_right_of_le hPlaced.start_le
  · rw [start_advance, offset_advance, encoding_advance, hOffset]
    exact Nat.dvd_add hPlaced.aligned Encoding.unitSize_dvd_size

theorem Placed.trailed_append (hPlaced : c.Placed) (hReads : c.Reads (text ++ [ch])) :
    (c.advance (text ++ [ch])).Trailed := by
  rw [advance_append]
  exact hPlaced.advance.trailed (reads_append.mp hReads).2

/-- The bytes of a name are compared without a character being read. -/
theorem Placed.trailed_endTag {c' : Cursor} (hPlaced : c.Placed) (hName : IsName name)
    (hReads : c.Reads (CodePoint.slash :: name))
    (hCursor : c' = { c.advance [CodePoint.slash] with offset := c'.offset })
    (hOffset : c'.offset = (c.advance [CodePoint.slash]).offset + c.encoding.size name) : c'.Trailed := by
  have hDoc : c'.doc = c.doc ∧ c'.start = c.start ∧ c'.stop = c.stop ∧ c'.encoding = c.encoding ∧
      c'.last = c.offset := by
    rw [hCursor]
    exact ⟨rfl, rfl, rfl, rfl, rfl⟩
  obtain ⟨hDoc, hStart, hStop, hEncoding, hLast⟩ := hDoc
  refine ⟨CodePoint.slash :: name, ⟨?_, ?_, ?_, ?_⟩, .endTag hName⟩
  · rw [hStart, hLast]
    exact hPlaced.start_le
  · rw [hStart, hLast, hEncoding]
    exact hPlaced.aligned
  · rw [hLast]
    exact (readsAt_congr hDoc hStop hEncoding).mpr hReads
  · rw [hOffset, hLast, hEncoding, offset_advance, Encoding.size_cons, Encoding.size_cons, Encoding.size_nil,
      Nat.add_zero, Nat.add_assoc]

theorem Trails.position_offset (hTrails : c.Trails text) :
    c.position c.offset = text.foldl (Position.past c.encoding) (c.position c.last) := by
  cases text with
  | nil => rw [hTrails.offset_eq, Encoding.size_nil, Nat.add_zero, List.foldl_nil]
  | cons ch text =>
    have hStop := hTrails.reads.le_stop (List.cons_ne_nil _ _)
    rw [position, position, hTrails.offset_eq, Nat.min_eq_left hStop, Nat.min_eq_left (by omega)]
    exact Position.ofOffset_add hTrails.start_le hTrails.aligned hTrails.reads

/-- Past a character the position is another. -/
theorem Trails.position_ne (hTrails : c.Trails (ch :: text)) : c.position c.last ≠ c.position c.offset := by
  rw [hTrails.position_offset]
  exact (Position.foldl_past_ne (List.cons_ne_nil _ _)).symm

theorem Trails.start_lt (hTrails : c.Trails (ch :: text)) : c.start < c.offset := by
  have hWidth := Encoding.width_pos (e := c.encoding) ch
  have hStart := hTrails.start_le
  have hOffset := hTrails.offset_eq
  rw [Encoding.size_cons] at hOffset
  omega

/-- The place that is remembered has the position of the cursor only while nothing has been read. -/
theorem Trails.position_eq_iff (hTrails : c.Trails text) (hRemembers : c.Remembers text) :
    c.position c.last = c.position c.offset ↔ c.offset = c.start := by
  cases hRemembers with
  | nothing hStart =>
    have hOffset : c.offset = c.last := hTrails.offset_eq
    rw [hOffset]
    exact iff_of_true rfl hStart
  | character ch => exact iff_of_false hTrails.position_ne (Nat.ne_of_gt hTrails.start_lt)
  | endTag _ => exact iff_of_false hTrails.position_ne (Nat.ne_of_gt hTrails.start_lt)

end Cursor

namespace Scan
variable {α β σ : Type} {c : Cursor}

/-- There is a trail; and where it ends for want of a character that decodes, there is none. -/
def Marks : EStateM.Result Fault Cursor α → Prop
  | .ok _ c => c.Trailed
  | .error fault c => c.Trailed ∧ (fault.IsUndecodable → c.charAt c.offset = .error fault)

def Marking (action : Scan α) : Prop :=
  ∀ c, c.Trailed → Marks (action c)

theorem marking_pure (a : α) : Marking (pure a : Scan α) :=
  fun _ hTrailed => hTrailed

theorem marking_throw {fault : Fault} (hOther : ¬fault.IsUndecodable) : Marking (throw fault : Scan α) :=
  fun _ hTrailed => ⟨hTrailed, fun hUndecodable => absurd hUndecodable hOther⟩

theorem marking_fail (cause : SyntaxFault) : Marking (fail cause : Scan α) :=
  marking_throw id

theorem Marking.bind {action : Scan α} {next : α → Scan β} (hAction : Marking action)
    (hNext : ∀ a, Marking (next a)) : Marking (action >>= next) := by
  intro c hTrailed
  have hFirst := hAction c hTrailed
  change Marks (EStateM.bind action next c)
  unfold EStateM.bind
  cases hResult : action c with
  | ok a c' =>
    rw [hResult] at hFirst
    exact hNext a c' hFirst
  | error fault c' =>
    rw [hResult] at hFirst
    exact hFirst

theorem Marking.ite {condition : Prop} [Decidable condition] {yes no : Scan α} (hYes : Marking yes)
    (hNo : Marking no) : Marking (if condition then yes else no) := by
  split
  · exact hYes
  · exact hNo

theorem marking_require (condition : Bool) (cause : SyntaxFault) : Marking (require condition cause) :=
  .ite (marking_pure ()) (marking_fail cause)

/-- The cursor stays where a character does not decode. -/
theorem marking_next : Marking next := by
  intro c hTrailed
  cases hResult : next c with
  | ok ch c' =>
    obtain ⟨hReads, rfl⟩ := next_eq_ok_iff.mp hResult
    exact hTrailed.placed.trailed hReads
  | error fault c' =>
    unfold next at hResult
    split at hResult <;> cases hResult
    exact ⟨hTrailed, fun _ => ‹_›⟩

theorem marking_skip (expected : CodePoint) : Marking (skip expected) := by
  intro c hTrailed
  cases hResult : skip expected c with
  | ok found c' =>
    cases found with
    | true =>
      obtain ⟨hReads, rfl⟩ := skip_eq_ok_true_iff.mp hResult
      exact hTrailed.placed.trailed hReads
    | false =>
      obtain ⟨-, -, -, rfl⟩ := skip_eq_ok_false_iff.mp hResult
      exact hTrailed
  | error fault c' =>
    unfold skip at hResult
    split at hResult
    · cases hResult
      exact ⟨hTrailed, fun _ => ‹_›⟩
    · split at hResult <;> cases hResult

theorem marking_skipAll (expected : List CodePoint) : Marking (skipAll expected) := by
  induction expected with
  | nil => exact marking_pure true
  | cons ch rest ih => exact (marking_skip ch).bind fun _ => .ite ih (marking_pure false)

theorem marking_skipAny (choices : List CodePoint) : Marking (skipAny choices) := by
  induction choices with
  | nil => exact marking_pure false
  | cons ch rest ih => exact (marking_skip ch).bind fun _ => .ite (marking_pure true) ih

theorem marking_skipEach (sets : List (List CodePoint)) : Marking (skipEach sets) := by
  induction sets with
  | nil => exact marking_pure true
  | cons choices rest ih => exact (marking_skipAny choices).bind fun _ => .ite ih (marking_pure false)

theorem marking_offset : Marking offset :=
  fun _ hTrailed => hTrailed

theorem marking_last : Marking last :=
  fun _ hTrailed => hTrailed

/-- Bytes that are compared need not decode. -/
theorem not_isUndecodable_of_skipAgain {place length : Nat} {fault : Fault} {c' : Cursor}
    (hError : skipAgain place length c = .error fault c') : ¬fault.IsUndecodable := by
  unfold skipAgain at hError
  split at hError
  · cases hError
    exact id
  · split at hError <;> cases hError

section
variable {machine : Automaton σ α} (hBlameless : ∀ state place ch, (machine state place ch).Blameless)
include hBlameless

theorem marking_drive (state : σ) : Marking (drive machine state) := by
  intro c hTrailed
  have hNext := marking_next c hTrailed
  fun_induction drive machine state c with
  | case1 state c fault c' hError =>
    rw [hError] at hNext
    exact hNext
  | case2 state c ch c' hOk state' hMore ih =>
    rw [hOk] at hNext
    exact ih hNext (marking_next c' hNext)
  | case3 state c ch c' hOk result hDone =>
    rw [hOk] at hNext
    exact hNext
  | case4 state c ch c' hOk fault hReject =>
    rw [hOk] at hNext
    have hOther := hBlameless state c'.last ch
    rw [hReject] at hOther
    exact ⟨hNext, fun hUndecodable => absurd hUndecodable hOther⟩

theorem marking_feed (state : σ) (ch : CodePoint) : Marking (feed machine state ch) := by
  refine marking_last.bind fun place => ?_
  have hOther := hBlameless state place ch
  cases hVerdict : machine state place ch with
  | more state' => exact marking_drive hBlameless state'
  | done result => exact marking_pure result
  | reject fault =>
    rw [hVerdict] at hOther
    exact marking_throw hOther

end

theorem marking_nextAfter (skipped : CodePoint → Bool) : Marking (nextAfter skipped) := by
  refine marking_drive (fun state place ch => ?_) ()
  split <;> trivial

theorem marking_nextAfterSpace : Marking nextAfterSpace :=
  marking_nextAfter _

theorem marking_skipSpace (ch : CodePoint) : Marking (skipSpace ch) :=
  .ite marking_nextAfterSpace (marking_pure ch)

/-- A reference is refused for what it says. -/
theorem blameless_reference (state : Reference.State) (ch : CodePoint) : (Reference.step state ch).Blameless := by
  rcases @Reference.proceeds_step ch state with ⟨state', hMore⟩ | ⟨n, hDone⟩ | ⟨cause, hReject⟩
  · rw [hMore]
    trivial
  · rw [hDone]
    trivial
  · rw [hReject]
    exact id

theorem blameless_plainStep (ch : CodePoint) : (Text.plainStep ch).Blameless := by
  unfold Text.plainStep
  repeat' split
  all_goals first | trivial | exact id

theorem blameless_text (state : Text.State) (ch : CodePoint) : (Text.step state ch).Blameless := by
  cases state with
  | plain => exact blameless_plainStep ch
  | bracket =>
    rw [Text.step]
    split
    · trivial
    · exact blameless_plainStep ch
  | brackets =>
    rw [Text.step]
    split
    · trivial
    · split
      · exact id
      · exact blameless_plainStep ch
  | reference state =>
    have hReference := blameless_reference state ch
    rw [Text.step]
    cases hVerdict : Reference.step state ch with
    | more state' => trivial
    | done n => trivial
    | reject fault => rwa [hVerdict] at hReference

theorem blameless_attributeValue (quote : CodePoint) (state : AttributeValue.State) (ch : CodePoint) :
    (AttributeValue.step quote state ch).Blameless := by
  cases state with
  | body =>
    rw [AttributeValue.step]
    repeat' split
    all_goals first | trivial | exact id
  | reference state =>
    have hReference := blameless_reference state ch
    rw [AttributeValue.step]
    cases hVerdict : Reference.step state ch with
    | more state' => trivial
    | done n => trivial
    | reject fault => rwa [hVerdict] at hReference

theorem marking_text (ch : CodePoint) : Marking (text ch) :=
  marking_feed (fun state _ ch => blameless_text state ch) _ ch

theorem marking_comment : Marking comment := by
  refine marking_drive (fun state place ch => ?_) _
  unfold Comment.step
  repeat' split
  all_goals first | trivial | exact id

theorem marking_characterSection : Marking characterSection := by
  refine marking_drive (fun state place ch => ?_) _
  unfold CharacterSection.step
  repeat' split
  all_goals first | trivial | exact id

theorem marking_instructionData : Marking instructionData := by
  refine marking_drive (fun state place ch => ?_) _
  unfold Instruction.step
  repeat' split
  all_goals first | trivial | exact id

theorem marking_documentType : Marking documentType := by
  refine marking_drive (fun state place ch => ?_) _
  unfold DocumentType.step
  repeat' split
  all_goals first | trivial | exact id

theorem marking_reservedLetters (ch : CodePoint) : Marking (reservedLetters ch) := by
  unfold reservedLetters
  split
  · exact .ite (marking_skipEach _) (marking_pure _)
  · exact marking_pure _

theorem marking_instructionTarget : Marking instructionTarget :=
  marking_next.bind fun first => (marking_require _ _).bind fun _ =>
    (marking_reservedLetters first).bind fun _ =>
      .ite
        (marking_next.bind fun _ => (marking_require _ _).bind fun _ =>
          .ite (marking_nextAfter _) (marking_pure _))
        (marking_nextAfter _)

theorem marking_openValue : Marking openValue :=
  marking_next.bind fun _ => (marking_skipSpace _).bind fun _ => (marking_require _ _).bind fun _ =>
    marking_nextAfterSpace.bind fun _ => (marking_require _ _).bind fun _ => marking_pure _

theorem marking_closeValue (quote : CodePoint) : Marking (closeValue quote) :=
  (marking_skip quote).bind fun _ => marking_require _ _

theorem marking_version : Marking version :=
  (marking_skipAll _).bind fun _ => .ite (marking_skipAny _) (marking_pure _)

theorem marking_standaloneAnswer : Marking standaloneAnswer :=
  (marking_skipAll _).bind fun _ => .ite (marking_pure _)
    ((marking_skipAll _).bind fun _ => .ite (marking_pure _) (marking_fail _))

theorem marking_label (quote : CodePoint) : Marking (label quote) := by
  refine marking_drive (fun state place ch => ?_) _
  unfold EncodingLabel.step
  repeat' split
  all_goals first | trivial | exact id

theorem marking_nextSpaced : Marking nextSpaced :=
  marking_next.bind fun _ => (marking_skipSpace _).bind fun _ => marking_pure _

theorem marking_opensDeclaration : Marking opensDeclaration :=
  (marking_skipEach _).bind fun _ =>
    .ite (marking_next.bind fun _ => (marking_require _ _).bind fun _ => marking_pure _) (marking_pure _)

theorem marking_nextAfterSpace? : Marking nextAfterSpace? := by
  intro c hTrailed
  have hNext := marking_nextAfterSpace c hTrailed
  unfold nextAfterSpace?
  cases hResult : nextAfterSpace c with
  | ok ch c' =>
    rw [hResult] at hNext
    exact hNext
  | error fault c' =>
    rw [hResult] at hNext
    cases fault with
    | endOfDocument => exact hNext.1
    | _ => exact hNext

theorem marking_tail : Marking tail := by
  have hOpening : Marking (do
      if ← skip CodePoint.question then pure Tail.instruction
      else if ← skipAll [CodePoint.bang, CodePoint.hyphen, CodePoint.hyphen] then pure .comment
      else fail .notTerminated) :=
    (marking_skip _).bind fun _ => .ite (marking_pure _)
      ((marking_skipAll _).bind fun _ => .ite (marking_pure _) (marking_fail _))
  intro c hTrailed
  have hResult := hOpening c hTrailed
  unfold tail
  generalize (do
      if ← skip CodePoint.question then pure Tail.instruction
      else if ← skipAll [CodePoint.bang, CodePoint.hyphen, CodePoint.hyphen] then pure .comment
      else fail .notTerminated : Scan Tail) = opening at hResult ⊢
  cases hOpens : opening c with
  | ok found c' =>
    rw [hOpens] at hResult
    simp only [hOpens]
    exact hResult
  | error fault c' =>
    rw [hOpens] at hResult
    simp only [hOpens]
    cases fault with
    | endOfDocument => exact ⟨hResult.1, nofun⟩
    | _ => exact hResult

theorem marking_nameEnd (place : Nat) (found : CodePoint × Nat) : Marking (nameEnd place found) :=
  marking_last.bind fun _ => marking_pure _

theorem blameless_nameStep (colon place : Nat) (ch : CodePoint) : (nameStep colon place ch).Blameless := by
  unfold nameStep
  split <;> trivial

theorem marking_nameRest (place : Nat) : Marking (nameRest place) :=
  (marking_drive blameless_nameStep _).bind fun _ => marking_nameEnd _ _

theorem marking_nameFrom (place : Nat) (ch : CodePoint) : Marking (nameFrom place ch) :=
  (marking_feed blameless_nameStep _ _).bind fun _ => marking_nameEnd _ _

theorem marking_attributeRole (first : CodePoint) : Marking (attributeRole first) :=
  .ite
    ((marking_skipAll _).bind fun _ => .ite (marking_next.bind fun _ => marking_pure _) (marking_pure _))
    (marking_pure _)

theorem marking_openAttribute (ch : CodePoint) : Marking (openAttribute ch) :=
  (marking_skipSpace ch).bind fun _ => (marking_require _ _).bind fun _ =>
    marking_nextAfterSpace.bind fun _ => (marking_require _ _).bind fun _ => marking_pure _

theorem marking_attributeValue (quote : CodePoint) : Marking (attributeValue quote) :=
  marking_drive (fun state _ ch => blameless_attributeValue quote state ch) _

end Scan
end XmlIndex
