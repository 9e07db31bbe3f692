import XmlIndex.Proofs.Scan.Reading
import XmlIndex.Proofs.Translation.Namespaces

/-! # Reading a document that goes on

A document that is cut short is read as the whole of it is, up to where its end is met. So each reading
has the same result and fails alike in both, unless the shorter document ends too soon for it.
-/
namespace XmlIndex
set_option autoImplicit false

/-- The document ends where it may not. -/
def Fault.IsUnfinished : Fault → Prop
  | .endOfDocument => True
  | .structural .notTerminated _ => True
  | _ => False

section
variable {doc : ByteArray} {stop stop' i : Nat}

theorem byteAt?_longer (hStop : stop ≤ stop') (hInside : i < stop) : byteAt? doc stop' i = byteAt? doc stop i := by
  rw [byteAt?, byteAt?, if_pos hInside, if_pos (Nat.lt_of_lt_of_le hInside hStop)]

theorem byteAt?_eq_none_or (hStop : stop ≤ stop') :
    byteAt? doc stop i = none ∨ byteAt? doc stop' i = byteAt? doc stop i := by
  by_cases hInside : i < stop
  · exact .inr (byteAt?_longer hStop hInside)
  · exact .inl (byteAt?_eq_none_of_le (Nat.not_lt.mp hInside))

theorem Utf8.continuation_longer {count value : Nat} (hStop : stop ≤ stop') (hRoom : i + count ≤ stop) :
    Utf8.continuation doc stop' count i value = Utf8.continuation doc stop count i value := by
  induction count generalizing i value with
  | zero => rfl
  | succ count ih =>
    have hRest (value : Nat) := @ih (i + 1) value (by omega)
    rw [Utf8.continuation, Utf8.continuation, byteAt?_longer hStop (by omega)]
    simp only [hRest]

theorem Utf8.sequence_longer {width least lead : Nat} (hStop : stop ≤ stop') (hWidth : 0 < width) :
    Utf8.sequence doc stop i width least lead = .error .truncated ∨
      Utf8.sequence doc stop' i width least lead = Utf8.sequence doc stop i width least lead := by
  unfold Utf8.sequence
  by_cases hRoom : stop < i + width
  · exact .inl (if_pos hRoom)
  · have hRest := @Utf8.continuation_longer doc stop stop' (i + 1) (width - 1) lead hStop (by omega)
    right
    rw [if_neg hRoom, if_neg (by omega), hRest]

theorem Utf8.decodeAt_longer (hStop : stop ≤ stop') : Utf8.decodeAt doc stop i = .error .truncated ∨
    Utf8.decodeAt doc stop' i = Utf8.decodeAt doc stop i := by
  unfold Utf8.decodeAt
  obtain hEnd | hByte := @byteAt?_eq_none_or doc stop stop' i hStop
  · rw [hEnd]
    exact .inl rfl
  · rw [hByte]
    cases byteAt? doc stop i with
    | none => exact .inl rfl
    | some byte =>
      simp only
      repeat' split
      all_goals first
        | exact .inr rfl
        | exact Utf8.sequence_longer hStop (by decide)

theorem Utf16.unitAt?_longer {order : ByteOrder} (hStop : stop ≤ stop') :
    Utf16.unitAt? order doc stop i = none ∨ Utf16.unitAt? order doc stop' i = Utf16.unitAt? order doc stop i := by
  unfold Utf16.unitAt?
  obtain hFirst | hFirst := @byteAt?_eq_none_or doc stop stop' i hStop
  · rw [hFirst]
    exact .inl rfl
  · obtain hSecond | hSecond := @byteAt?_eq_none_or doc stop stop' (i + 1) hStop
    · rw [hSecond]
      exact .inl (by cases byteAt? doc stop i <;> rfl)
    · exact .inr (by rw [hFirst, hSecond])

theorem Utf16.decodeAt_longer {order : ByteOrder} (hStop : stop ≤ stop') :
    Utf16.decodeAt order doc stop i = .error .truncated ∨
      Utf16.decodeAt order doc stop' i = Utf16.decodeAt order doc stop i := by
  unfold Utf16.decodeAt
  obtain hEnd | hUnit := @Utf16.unitAt?_longer doc stop stop' i order hStop
  · rw [hEnd]
    exact .inl rfl
  · rw [hUnit]
    cases Utf16.unitAt? order doc stop i with
    | none => exact .inl rfl
    | some unit =>
      simp only
      split
      · exact .inr rfl
      · split
        · exact .inr rfl
        · obtain hEnd | hLow := @Utf16.unitAt?_longer doc stop stop' (i + 2) order hStop
          · rw [hEnd]
            exact .inl rfl
          · exact .inr (by rw [hLow])

/-- In a longer document a character is what it was, unless it was cut off. -/
theorem Encoding.decodeAt_longer {e : Encoding} (hStop : stop ≤ stop') :
    e.decodeAt doc stop i = .error .truncated ∨ e.decodeAt doc stop' i = e.decodeAt doc stop i := by
  have hByte := @byteAt?_eq_none_or doc stop stop' i hStop
  have hPage (page : CodePage) : CodePage.decodeAt page doc stop i = .error .truncated ∨
      CodePage.decodeAt page doc stop' i = CodePage.decodeAt page doc stop i := by
    unfold CodePage.decodeAt
    exact hByte.imp (fun h => by rw [h]) (fun h => by rw [h])
  cases e with
  | utf8 => exact Utf8.decodeAt_longer hStop
  | utf16 order => exact Utf16.decodeAt_longer hStop
  | ascii =>
    change Ascii.decodeAt _ _ _ = _ ∨ Ascii.decodeAt _ _ _ = Ascii.decodeAt _ _ _
    unfold Ascii.decodeAt
    exact hByte.imp (fun h => by rw [h]) (fun h => by rw [h])
  | latin1 =>
    change Latin1.decodeAt _ _ _ = _ ∨ Latin1.decodeAt _ _ _ = Latin1.decodeAt _ _ _
    unfold Latin1.decodeAt
    exact hByte.imp (fun h => by rw [h]) (fun h => by rw [h])
  | _ => exact hPage _

end

namespace Cursor

def upTo (c : Cursor) (stop : Nat) : Cursor :=
  { c with stop }

structure Moved (c c' : Cursor) : Prop where
  eq : c' = { c with offset := c'.offset, last := c'.last }
  aligned : c.encoding.unitSize ∣ c.offset → c.encoding.unitSize ∣ c'.offset

variable {c c' c'' : Cursor} {stop : Nat}

theorem Moved.doc_eq (hMoved : c.Moved c') : c'.doc = c.doc := by
  rw [hMoved.eq]

theorem Moved.start_eq (hMoved : c.Moved c') : c'.start = c.start := by
  rw [hMoved.eq]

theorem Moved.stop_eq (hMoved : c.Moved c') : c'.stop = c.stop := by
  rw [hMoved.eq]

theorem Moved.encoding_eq (hMoved : c.Moved c') : c'.encoding = c.encoding := by
  rw [hMoved.eq]

theorem Moved.refl : c.Moved c :=
  ⟨rfl, id⟩

theorem Moved.trans (hFirst : c.Moved c') (hSecond : c'.Moved c'') : c.Moved c'' where
  eq := by rw [hSecond.eq, hFirst.eq]
  aligned hUnit := by
    have hThere := hFirst.aligned hUnit
    rw [← hFirst.encoding_eq] at hThere ⊢
    exact hSecond.aligned hThere

theorem moved_add {width last : Nat} (hUnit : c.encoding.unitSize ∣ width) :
    c.Moved { c with offset := c.offset + width, last } :=
  ⟨rfl, fun h => Nat.dvd_add h hUnit⟩

theorem moved_of_charAt {ch width : Nat} (hRead : c.charAt c.offset = .ok (ch, width)) :
    c.Moved { c with offset := c.offset + width, last := c.offset } := by
  refine moved_add ?_
  rw [eq_width_of_charAt hRead]
  exact Encoding.unitSize_dvd_width _ _

end Cursor

/-- The answer lasts in the longer document, unless the shorter one ends before it. -/
def Lasts {α : Type} (shorter longer : Except Fault α) : Prop :=
  (∃ fault, shorter = .error fault ∧ fault.IsUnfinished) ∨ longer = shorter

namespace Lasts
variable {α β : Type} {shorter longer : Except Fault α}

theorem refl (answer : Except Fault α) : Lasts answer answer :=
  .inr rfl

theorem bind {next next' : α → Except Fault β} (hFirst : Lasts shorter longer)
    (hNext : ∀ a, shorter = .ok a → Lasts (next a) (next' a)) :
    Lasts (shorter >>= next) (longer >>= next') := by
  obtain ⟨fault, rfl, hUnfinished⟩ | rfl := hFirst
  · exact .inl ⟨fault, rfl, hUnfinished⟩
  · cases longer with
    | error fault => exact .inr rfl
    | ok a => exact hNext a rfl

theorem ite {condition : Prop} [Decidable condition] {yes no yes' no' : Except Fault α}
    (hYes : Lasts yes yes') (hNo : Lasts no no') :
    Lasts (if condition then yes else no) (if condition then yes' else no') := by
  split
  · exact hYes
  · exact hNo

end Lasts

namespace Cursor
variable {c : Cursor} {stop : Nat}

theorem charAt_longer (hStop : c.stop ≤ stop) (offset : Nat) :
    Lasts (c.charAt offset) ((c.upTo stop).charAt offset) := by
  unfold charAt
  obtain hEnd | hSame := @Encoding.decodeAt_longer c.doc c.stop stop offset c.encoding hStop
  · rw [hEnd]
    exact .inl ⟨_, rfl, trivial⟩
  · exact .inr (by rw [show (c.upTo stop).encoding.decodeAt (c.upTo stop).doc (c.upTo stop).stop offset = _ from hSame])

end Cursor

namespace Scan
variable {α β σ : Type}

/-- Both have one result and end at one place, or they fail alike; but in the shorter document the end may
come too soon. -/
def Agrees (c : Cursor) (stop : Nat) : (shorter longer : EStateM.Result Fault Cursor α) → Prop
  | .ok a c', longer => c.Moved c' ∧ longer = .ok a (c'.upTo stop)
  | .error fault c', longer => c.Moved c' ∧ (fault.IsUnfinished ∨ longer = .error fault (c'.upTo stop))

def Steady (action : Scan α) : Prop :=
  ∀ c stop, c.stop ≤ stop → Agrees c stop (action c) (action (c.upTo stop))

theorem steady_pure (a : α) : Steady (pure a : Scan α) :=
  fun _ _ _ => ⟨.refl, rfl⟩

theorem steady_throw (fault : Fault) : Steady (throw fault : Scan α) :=
  fun _ _ _ => ⟨.refl, .inr rfl⟩

theorem Steady.bind {action : Scan α} {next : α → Scan β} (hAction : Steady action)
    (hNext : ∀ a, Steady (next a)) : Steady (action >>= next) := by
  intro c stop hStop
  have hFirst := hAction c stop hStop
  change Agrees c stop (EStateM.bind action next c) (EStateM.bind action next (c.upTo stop))
  unfold EStateM.bind
  cases hShorter : action c with
  | ok a c' =>
    rw [hShorter] at hFirst
    obtain ⟨hMoved, hLonger⟩ := hFirst
    have hSecond := hNext a c' stop (hMoved.stop_eq ▸ hStop)
    rw [hLonger]
    change Agrees c stop (next a c') (next a (c'.upTo stop))
    cases hRest : next a c' <;> rw [hRest] at hSecond
    · exact ⟨hMoved.trans hSecond.1, hSecond.2⟩
    · exact ⟨hMoved.trans hSecond.1, hSecond.2⟩
  | error fault c' =>
    rw [hShorter] at hFirst
    exact ⟨hFirst.1, hFirst.2.imp_right fun hLonger => by rw [hLonger]⟩

theorem Steady.ite {condition : Prop} [Decidable condition] {yes no : Scan α} (hYes : Steady yes)
    (hNo : Steady no) : Steady (if condition then yes else no) := by
  split
  · exact hYes
  · exact hNo

theorem steady_next : Steady next := by
  intro c stop hStop
  unfold next
  obtain ⟨fault, hEnd, hUnfinished⟩ | hSame := Cursor.charAt_longer hStop c.offset
  · rw [hEnd]
    exact ⟨.refl, .inl hUnfinished⟩
  · rw [show (c.upTo stop).charAt (c.upTo stop).offset = _ from hSame]
    cases hRead : c.charAt c.offset with
    | error fault => exact ⟨.refl, .inr rfl⟩
    | ok read => exact ⟨Cursor.moved_of_charAt hRead, rfl⟩

theorem steady_skip (expected : CodePoint) : Steady (skip expected) := by
  intro c stop hStop
  unfold skip
  obtain ⟨fault, hEnd, hUnfinished⟩ | hSame := Cursor.charAt_longer hStop c.offset
  · rw [hEnd]
    exact ⟨.refl, .inl hUnfinished⟩
  · rw [show (c.upTo stop).charAt (c.upTo stop).offset = _ from hSame]
    cases hRead : c.charAt c.offset with
    | error fault => exact ⟨.refl, .inr rfl⟩
    | ok read =>
      simp only
      split
      · exact ⟨Cursor.moved_of_charAt hRead, rfl⟩
      · exact ⟨.refl, rfl⟩

theorem steady_skipAll (expected : List CodePoint) : Steady (skipAll expected) := by
  induction expected with
  | nil => exact steady_pure true
  | cons ch rest ih => exact (steady_skip ch).bind fun _ => .ite ih (steady_pure false)

theorem steady_skipAny (choices : List CodePoint) : Steady (skipAny choices) := by
  induction choices with
  | nil => exact steady_pure false
  | cons ch rest ih => exact (steady_skip ch).bind fun _ => .ite (steady_pure true) ih

theorem steady_skipEach (sets : List (List CodePoint)) : Steady (skipEach sets) := by
  induction sets with
  | nil => exact steady_pure true
  | cons choices rest ih => exact (steady_skipAny choices).bind fun _ => .ite ih (steady_pure false)

theorem steady_offset : Steady offset :=
  fun _ _ _ => ⟨.refl, rfl⟩

theorem steady_last : Steady last :=
  fun _ _ _ => ⟨.refl, rfl⟩

theorem steady_encoding : Steady encoding :=
  fun _ _ _ => ⟨.refl, rfl⟩

/-- The bytes are compared only if something follows them. -/
theorem agrees_skipAgain {c : Cursor} {stop place length : Nat} (hStop : c.stop ≤ stop)
    (hUnit : c.encoding.unitSize ∣ length) :
    Agrees c stop (skipAgain place length c) (skipAgain place length (c.upTo stop)) := by
  unfold skipAgain
  by_cases hRoom : c.stop ≤ c.offset + length
  · rw [if_pos hRoom]
    exact ⟨.refl, .inl trivial⟩
  · have hRoom' : ¬(c.upTo stop).stop ≤ (c.upTo stop).offset + length :=
      fun h => hRoom (Nat.le_trans hStop h)
    rw [if_neg hRoom, if_neg hRoom']
    by_cases hSame : Cursor.sameBytes c.doc length c.offset place = true
    · rw [if_pos hSame, if_pos (show Cursor.sameBytes (c.upTo stop).doc length (c.upTo stop).offset place = true from hSame)]
      exact ⟨Cursor.moved_add hUnit, rfl⟩
    · rw [if_neg hSame,
        if_neg (show ¬Cursor.sameBytes (c.upTo stop).doc length (c.upTo stop).offset place = true from hSame)]
      exact ⟨.refl, rfl⟩

theorem steady_ask {question : Cursor → Except Fault α}
    (hLasts : ∀ c stop, c.stop ≤ stop → Lasts (question c) (question (c.upTo stop))) :
    Steady (ask question) := by
  intro c stop hStop
  unfold ask
  obtain ⟨fault, hEnd, hUnfinished⟩ | hSame := hLasts c stop hStop
  · rw [hEnd]
    exact ⟨.refl, .inl hUnfinished⟩
  · rw [hSame]
    cases question c with
    | ok a => exact ⟨.refl, rfl⟩
    | error fault => exact ⟨.refl, .inr rfl⟩

theorem steady_fail (cause : SyntaxFault) : Steady (fail cause : Scan α) :=
  steady_throw _

theorem steady_require (condition : Bool) (cause : SyntaxFault) : Steady (require condition cause) :=
  .ite (steady_pure ()) (steady_fail cause)

theorem Steady.orRewind {test : Scan Bool} (hTest : Steady test) : Steady (orRewind test) := by
  intro c stop hStop
  have hBoth := hTest c stop hStop
  unfold Scan.orRewind
  cases hShorter : test c with
  | ok b c' =>
    rw [hShorter] at hBoth
    obtain ⟨hMoved, hLonger⟩ := hBoth
    rw [hLonger]
    cases b
    · refine ⟨⟨?_, id⟩, rfl⟩
      rw [hMoved.eq]
    · exact ⟨hMoved, rfl⟩
  | error fault c' =>
    rw [hShorter] at hBoth
    exact ⟨hBoth.1, hBoth.2.imp_right fun hLonger => by rw [hLonger]⟩

theorem steady_drive (machine : Automaton σ α) (state : σ) : Steady (drive machine state) := by
  -- The induction is along the run in the shorter document; that in the longer one makes the same moves.
  intro c stop hStop
  have hNext := steady_next c stop hStop
  fun_induction drive machine state c with
  | case1 state c fault c' hError =>
    rw [hError] at hNext
    exact ⟨hNext.1, hNext.2.imp_right Overlay.drive_of_error⟩
  | case2 state c ch c' hOk state' hMore ih =>
    rw [hOk] at hNext
    obtain ⟨hMoved, hLonger⟩ := hNext
    have hStop' : c'.stop ≤ stop := hMoved.stop_eq ▸ hStop
    have hMore' : machine state (c'.upTo stop).last ch = .more state' := hMore
    have hRest := ih hStop' (steady_next c' stop hStop')
    rw [Overlay.drive_of_ok hLonger, hMore']
    change Agrees c stop (drive machine state' c') (drive machine state' (c'.upTo stop))
    cases hShorter : drive machine state' c' <;> rw [hShorter] at hRest
    · exact ⟨hMoved.trans hRest.1, hRest.2⟩
    · exact ⟨hMoved.trans hRest.1, hRest.2⟩
  | case3 state c ch c' hOk result hDone =>
    rw [hOk] at hNext
    obtain ⟨hMoved, hLonger⟩ := hNext
    have hDone' : machine state (c'.upTo stop).last ch = .done result := hDone
    rw [Overlay.drive_of_ok hLonger, hDone']
    exact ⟨hMoved, rfl⟩
  | case4 state c ch c' hOk fault hReject =>
    rw [hOk] at hNext
    obtain ⟨hMoved, hLonger⟩ := hNext
    have hReject' : machine state (c'.upTo stop).last ch = .reject fault := hReject
    rw [Overlay.drive_of_ok hLonger, hReject']
    exact ⟨hMoved, .inr rfl⟩

theorem steady_feed (machine : Automaton σ α) (state : σ) (ch : CodePoint) :
    Steady (feed machine state ch) := by
  refine steady_last.bind fun place => ?_
  split
  · exact steady_drive machine _
  · exact steady_pure _
  · exact steady_throw _

theorem steady_nextAfter (skipped : CodePoint → Bool) : Steady (nextAfter skipped) :=
  steady_drive _ _

theorem steady_nextAfterSpace : Steady nextAfterSpace :=
  steady_nextAfter _

theorem steady_skipSpace (ch : CodePoint) : Steady (skipSpace ch) :=
  .ite steady_nextAfterSpace (steady_pure ch)

theorem steady_text (ch : CodePoint) : Steady (text ch) :=
  steady_feed _ _ ch

theorem steady_comment : Steady comment :=
  steady_drive _ _

theorem steady_characterSection : Steady characterSection :=
  steady_drive _ _

theorem steady_instructionData : Steady instructionData :=
  steady_drive _ _

theorem steady_documentType : Steady documentType :=
  steady_drive _ _

theorem steady_reservedLetters (ch : CodePoint) : Steady (reservedLetters ch) := by
  unfold reservedLetters
  split
  · exact .ite (steady_skipEach _) (steady_pure _)
  · exact steady_pure _

theorem steady_instructionTarget : Steady instructionTarget :=
  steady_next.bind fun first => (steady_require _ _).bind fun _ =>
    (steady_reservedLetters first).bind fun _ =>
      .ite
        (steady_next.bind fun _ => (steady_require _ _).bind fun _ =>
          .ite (steady_nextAfter _) (steady_pure _))
        (steady_nextAfter _)

theorem steady_openValue : Steady openValue :=
  steady_next.bind fun _ => (steady_skipSpace _).bind fun _ => (steady_require _ _).bind fun _ =>
    steady_nextAfterSpace.bind fun _ => (steady_require _ _).bind fun _ => steady_pure _

theorem steady_closeValue (quote : CodePoint) : Steady (closeValue quote) :=
  (steady_skip quote).bind fun _ => steady_require _ _

theorem steady_version : Steady version :=
  (steady_skipAll _).bind fun _ => .ite (steady_skipAny _) (steady_pure _)

theorem steady_standaloneAnswer : Steady standaloneAnswer :=
  (steady_skipAll _).bind fun _ => .ite (steady_pure _)
    ((steady_skipAll _).bind fun _ => .ite (steady_pure _) (steady_fail _))

theorem steady_label (quote : CodePoint) : Steady (label quote) :=
  steady_drive _ _

theorem steady_nextSpaced : Steady nextSpaced :=
  steady_next.bind fun _ => (steady_skipSpace _).bind fun _ => steady_pure _

theorem steady_opensDeclaration : Steady opensDeclaration :=
  (steady_skipEach _).bind fun _ =>
    .ite (steady_next.bind fun _ => (steady_require _ _).bind fun _ => steady_pure _) (steady_pure _)

/-- Where the shorter document ends in space, the longer one may go on. -/
theorem nextAfterSpace?_longer {c : Cursor} {stop : Nat} (hStop : c.stop ≤ stop) :
    (∃ c', c.Moved c' ∧ nextAfterSpace? c = .ok none c') ∨
      Agrees c stop (nextAfterSpace? c) (nextAfterSpace? (c.upTo stop)) := by
  have hBoth := steady_nextAfterSpace c stop hStop
  unfold nextAfterSpace?
  cases hShorter : nextAfterSpace c with
  | ok ch c' =>
    rw [hShorter] at hBoth
    rw [hBoth.2]
    exact .inr ⟨hBoth.1, rfl⟩
  | error fault c' =>
    rw [hShorter] at hBoth
    obtain ⟨hMoved, hSame⟩ := hBoth
    cases fault with
    | endOfDocument => exact .inl ⟨c', hMoved, rfl⟩
    | _ => exact .inr ⟨hMoved, hSame.imp_right fun hLonger => by rw [hLonger]⟩

/-- What follows the root may be cut short before it can be told; this is a fault of its own. -/
theorem steady_tail : Steady tail := by
  have hOpening : Steady (do
      if ← skip CodePoint.question then pure Tail.instruction
      else if ← skipAll [CodePoint.bang, CodePoint.hyphen, CodePoint.hyphen] then pure .comment
      else fail .notTerminated) :=
    (steady_skip _).bind fun _ => .ite (steady_pure _)
      ((steady_skipAll _).bind fun _ => .ite (steady_pure _) (steady_fail _))
  intro c stop hStop
  have hBoth := hOpening c stop hStop
  unfold tail
  generalize (do
      if ← skip CodePoint.question then pure Tail.instruction
      else if ← skipAll [CodePoint.bang, CodePoint.hyphen, CodePoint.hyphen] then pure .comment
      else fail .notTerminated : Scan Tail) = opening at hBoth ⊢
  cases hShorter : opening c with
  | ok found c' =>
    rw [hShorter] at hBoth
    simp only [hShorter, hBoth.2]
    exact ⟨hBoth.1, rfl⟩
  | error fault c' =>
    rw [hShorter] at hBoth
    obtain ⟨hMoved, hSame⟩ := hBoth
    simp only [hShorter]
    cases fault with
    | endOfDocument => exact ⟨hMoved, .inl trivial⟩
    | _ => exact ⟨hMoved, hSame.imp_right fun hLonger => by simp only [hLonger]⟩

theorem steady_nameEnd (place : Nat) (found : CodePoint × Nat) : Steady (nameEnd place found) :=
  steady_last.bind fun _ => steady_pure _

theorem steady_nameRest (place : Nat) : Steady (nameRest place) :=
  (steady_drive _ _).bind fun _ => steady_nameEnd _ _

theorem steady_nameFrom (place : Nat) (ch : CodePoint) : Steady (nameFrom place ch) :=
  (steady_feed _ _ _).bind fun _ => steady_nameEnd _ _

theorem steady_attributeRole (first : CodePoint) : Steady (attributeRole first) :=
  .ite
    ((steady_skipAll _).bind fun _ => .ite (steady_next.bind fun _ => steady_pure _) (steady_pure _))
    (steady_pure _)

theorem steady_openAttribute (ch : CodePoint) : Steady (openAttribute ch) :=
  (steady_skipSpace ch).bind fun _ => (steady_require _ _).bind fun _ =>
    steady_nextAfterSpace.bind fun _ => (steady_require _ _).bind fun _ => steady_pure _

theorem steady_attributeValue (quote : CodePoint) : Steady (attributeValue quote) :=
  steady_drive _ _

theorem steady_reference : Steady reference :=
  steady_drive _ _

theorem steady_nextResolved : Steady nextResolved :=
  steady_next.bind fun _ => .ite steady_reference (steady_pure _)

end Scan

namespace Cursor
variable {c : Cursor} {stop : Nat}

theorem spells_longer (hStop : c.stop ≤ stop) (offset length : Nat) (expected : List CodePoint) :
    Lasts (c.spells offset length expected) ((c.upTo stop).spells offset length expected) := by
  unfold spells
  generalize offset + length = after
  induction expected generalizing offset with
  | nil => exact .refl _
  | cons ch rest ih =>
    unfold spellsFrom
    refine .ite (.refl _) ?_
    obtain ⟨fault, hEnd, hUnfinished⟩ | hSame := charAt_longer hStop offset
    · rw [hEnd]
      exact .inl ⟨fault, rfl, hUnfinished⟩
    · rw [hSame]
      cases c.charAt offset with
      | error fault => exact .refl _
      | ok read => exact .ite (ih _) (.refl _)

theorem resolvedAt_longer (hStop : c.stop ≤ stop) (offset : Nat) :
    Lasts (c.resolvedAt offset) ((c.upTo stop).resolvedAt offset) := by
  have hBoth := Scan.steady_nextResolved { c with offset } stop hStop
  unfold resolvedAt
  cases hShorter : Scan.nextResolved { c with offset } with
  | ok ch c' =>
    rw [hShorter] at hBoth
    rw [show Scan.nextResolved { c.upTo stop with offset } = _ from hBoth.2]
    exact .refl _
  | error fault c' =>
    rw [hShorter] at hBoth
    obtain ⟨-, hUnfinished | hLonger⟩ := hBoth
    · exact .inl ⟨fault, rfl, hUnfinished⟩
    · rw [show Scan.nextResolved { c.upTo stop with offset } = _ from hLonger]
      exact .refl _

theorem sameResolved_longer (hStop : c.stop ≤ stop) (aStop bStop a b : Nat) :
    Lasts (c.sameResolved aStop bStop a b) ((c.upTo stop).sameResolved aStop bStop a b) := by
  -- The induction is on what is left of the first stretch.
  induction hLeft : aStop - a using Nat.strong_induction_on generalizing a b with
  | _ left ih =>
    subst hLeft
    rw [Overlay.sameResolved_eq, Overlay.sameResolved_eq]
    by_cases hInside : a < aStop ∧ b < bStop
    · rw [if_pos hInside, if_pos hInside]
      refine (resolvedAt_longer hStop a).bind fun first hFirst => ?_
      have hWidth : 0 < first.2 := resolvedAt_width hFirst
      refine (resolvedAt_longer hStop b).bind fun second _ => .ite ?_ (.refl _)
      exact ih _ (by omega) _ _ rfl
    · rw [if_neg hInside, if_neg hInside]
      exact .refl _

theorem spellsResolvedFrom_longer (hStop : c.stop ≤ stop) (after offset : Nat) (expected : List CodePoint) :
    Lasts (c.spellsResolvedFrom after offset expected) ((c.upTo stop).spellsResolvedFrom after offset expected) := by
  induction expected generalizing offset with
  | nil => exact .refl _
  | cons ch rest ih =>
    rw [Overlay.spellsResolvedFrom_cons, Overlay.spellsResolvedFrom_cons]
    exact .ite (.refl _) ((resolvedAt_longer hStop offset).bind fun _ _ => .ite (ih _) (.refl _))

theorem reserved_longer (hStop : c.stop ≤ stop) (offset length : Nat) :
    Lasts (Namespace.reserved offset length c) (Namespace.reserved offset length (c.upTo stop)) :=
  (spellsResolvedFrom_longer hStop _ _ _).bind fun _ _ => .ite (.refl _)
    ((spellsResolvedFrom_longer hStop _ _ _).bind fun _ _ => .ite (.refl _) (.refl _))

end Cursor

namespace Namespace
variable {c : Cursor} {stop : Nat}

/-- Prefixes are looked up among bytes that have been read. -/
theorem qualify_upTo (declarations : List Declaration) (names : List PrefixedName) :
    qualify (c.upTo stop) declarations names = qualify c declarations names := by
  induction names with
  | nil => rfl
  | cons name rest ih =>
    rw [qualify, qualify, ih]
    rfl

theorem checkApart_longer (hStop : c.stop ≤ stop) (first : PrefixedName × Declaration)
    (others : List (PrefixedName × Declaration)) :
    Lasts (checkApart c first others) (checkApart (c.upTo stop) first others) := by
  induction others with
  | nil => exact .refl _
  | cons other rest ih =>
    rw [Overlay.checkApart_cons, Overlay.checkApart_cons]
    refine .ite ?_ ih
    exact (Cursor.sameResolved_longer hStop _ _ _ _).bind fun _ _ => .ite (.refl _) ih

theorem checkDistinct_longer (hStop : c.stop ≤ stop) (names : List (PrefixedName × Declaration)) :
    Lasts (checkDistinct c names) (checkDistinct (c.upTo stop) names) := by
  induction names with
  | nil => exact .refl _
  | cons first rest ih =>
    rw [Overlay.checkDistinct_cons, Overlay.checkDistinct_cons]
    exact (checkApart_longer hStop first rest).bind fun _ _ => ih

theorem checkAttributes_longer (hStop : c.stop ≤ stop) (declarations : List Declaration)
    (names : List PrefixedName) :
    Lasts (checkAttributes c declarations names) (checkAttributes (c.upTo stop) declarations names) := by
  rw [Overlay.checkAttributes_eq, Overlay.checkAttributes_eq, qualify_upTo]
  exact (Lasts.refl _).bind fun names _ => checkDistinct_longer hStop names

theorem checkElement_longer (hStop : c.stop ≤ stop) (declarations : List Declaration) (name : PrefixedName) :
    Lasts (checkElement c declarations name) (checkElement (c.upTo stop) declarations name) := by
  rw [Overlay.checkElement_eq, Overlay.checkElement_eq]
  exact (Cursor.spells_longer hStop _ _ _).bind fun _ _ => .refl _

/-- Where the document goes on, a start tag closes as it did, unless the end came too soon for it. -/
theorem Scopes.close_longer (hStop : c.stop ≤ stop) (s : Scopes) :
    (∃ fault t, Scopes.close c s = .error fault t ∧ fault.IsUnfinished) ∨
      Scopes.close (c.upTo stop) s = Scopes.close c s := by
  unfold Scopes.close
  obtain ⟨fault, hEnd, hUnfinished⟩ | hSame := checkAttributes_longer hStop s.inForce s.attributes.toList
  · simp only [hEnd]
    exact .inl ⟨fault, _, rfl, hUnfinished⟩
  · rw [hSame]
    cases checkAttributes c s.inForce s.attributes.toList with
    | error fault => exact .inr rfl
    | ok u =>
      cases s.element with
      | none => exact .inr rfl
      | some name =>
        obtain ⟨fault, hEnd, hUnfinished⟩ | hSame := checkElement_longer hStop s.inForce name
        · simp only [hEnd]
          exact .inl ⟨fault, _, rfl, hUnfinished⟩
        · simp only [hSame]
          exact .inr trivial

end Namespace
end XmlIndex
