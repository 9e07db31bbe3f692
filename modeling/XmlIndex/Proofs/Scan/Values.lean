import XmlIndex.Proofs.Scan.Names
import XmlIndex.Proofs.Scan.References
import XmlIndex.Lexer.Document

/-! # Reading values

Values are read from before the space that may precede their equals sign up to their closing quote.
A declaration has values of its own kinds.
-/
namespace XmlIndex
set_option autoImplicit false
open Grammar

namespace Scan
variable {c c' : Cursor} {ch quote : CodePoint}

theorem isQuote_iff : (quote = CodePoint.doubleQuote || quote = CodePoint.singleQuote : Bool) = true ↔
    quote = CodePoint.doubleQuote ∨ quote = CodePoint.singleQuote := by
  simp

/-- The opening of a value from a consumed character on, whatever the faults when it is missing. -/
theorem opening_eq_ok_iff {noEquals noQuote : SyntaxFault} (hReads : c.Reads [ch]) :
    (do
      let ch ← skipSpace ch
      require (ch = CodePoint.equals) noEquals
      let quote ← nextAfterSpace
      require (quote = CodePoint.doubleQuote || quote = CodePoint.singleQuote) noQuote
      return quote : Scan CodePoint) (c.advance [ch]) = .ok quote c' ↔
    ∃ before after, c.Reads (before ++ CodePoint.equals :: (after ++ [quote])) ∧ IsSpace before ∧
      IsSpace after ∧ (quote = CodePoint.doubleQuote ∨ quote = CodePoint.singleQuote) ∧
        c' = c.advance (before ++ CodePoint.equals :: (after ++ [quote])) := by
  have hSplit : ∀ before after, before ++ CodePoint.equals :: (after ++ [quote]) =
      (before ++ [CodePoint.equals]) ++ (after ++ [quote]) := by simp
  constructor
  · intro hOk
    rw [bind_eq_ok_iff] at hOk
    obtain ⟨d, c₁, hSkip, hOk⟩ := hOk
    obtain ⟨before, hBefore, hSpace, -, rfl⟩ := (skipSpace_eq_ok_iff hReads).mp hSkip
    rw [bind_eq_ok_iff] at hOk
    obtain ⟨_, c₁, hRequire, hOk⟩ := hOk
    obtain ⟨hEquals, rfl⟩ := require_eq_ok_iff.mp hRequire
    obtain rfl := of_decide_eq_true hEquals
    rw [bind_eq_ok_iff] at hOk
    obtain ⟨q, c₁, hNext, hOk⟩ := hOk
    obtain ⟨after, hAfter, hSpace', -, rfl⟩ := nextAfterSpace_eq_ok_iff.mp hNext
    rw [bind_eq_ok_iff] at hOk
    obtain ⟨_, c₁, hRequire, hOk⟩ := hOk
    obtain ⟨hQuote, rfl⟩ := require_eq_ok_iff.mp hRequire
    obtain ⟨rfl, rfl⟩ := pure_eq_ok_iff.mp hOk
    refine ⟨before, after, ?_, hSpace, hSpace', isQuote_iff.mp hQuote, ?_⟩
    · rw [hSplit, Cursor.reads_append]
      exact ⟨hBefore, hAfter⟩
    · rw [hSplit]
      exact Cursor.advance_append.symm
  · rintro ⟨before, after, hText, hSpace, hSpace', hQuote, rfl⟩
    rw [hSplit, Cursor.reads_append] at hText
    rw [bind_eq_ok_iff]
    refine ⟨_, _, (skipSpace_eq_ok_iff hReads).mpr ⟨before, hText.1, hSpace, by decide, rfl⟩, ?_⟩
    rw [bind_eq_ok_iff]
    refine ⟨(), _, require_eq_ok_iff.mpr ⟨decide_eq_true rfl, rfl⟩, ?_⟩
    rw [bind_eq_ok_iff]
    have hNoSpace : CodePoint.isSpace quote = false := by
      rcases hQuote with rfl | rfl <;> decide
    refine ⟨quote, _, nextAfterSpace_eq_ok_iff.mpr ⟨after, hText.2, hSpace', hNoSpace, rfl⟩, ?_⟩
    rw [bind_eq_ok_iff]
    refine ⟨(), _, require_eq_ok_iff.mpr ⟨isQuote_iff.mpr hQuote, rfl⟩, pure_eq_ok_iff.mpr ⟨rfl, ?_⟩⟩
    rw [hSplit]
    exact Cursor.advance_append

def Opens (c : Cursor) (before after : Chars) (quote : CodePoint) (c' : Cursor) : Prop :=
  c.Reads (before ++ CodePoint.equals :: (after ++ [quote])) ∧ IsSpace before ∧ IsSpace after ∧
    (quote = CodePoint.doubleQuote ∨ quote = CodePoint.singleQuote) ∧
      c' = c.advance (before ++ CodePoint.equals :: (after ++ [quote]))

theorem openAttribute_eq_ok_iff (hReads : c.Reads [ch]) :
    openAttribute ch (c.advance [ch]) = .ok quote c' ↔ ∃ before after, Opens c before after quote c' :=
  opening_eq_ok_iff hReads

theorem openValue_eq_ok_iff : openValue c = .ok quote c' ↔
    ∃ before after, Opens c before after quote c' := by
  rw [openValue, bind_eq_ok_iff]
  constructor
  · rintro ⟨ch, c₁, hNext, hOk⟩
    obtain ⟨hReads, rfl⟩ := next_eq_ok_iff.mp hNext
    exact (opening_eq_ok_iff hReads).mp hOk
  · rintro ⟨before, after, hOpens⟩
    obtain ⟨ch, rest, hText⟩ : ∃ ch rest, before ++ CodePoint.equals :: (after ++ [quote]) = ch :: rest :=
      List.exists_cons_of_ne_nil (by simp)
    have hReads := (Cursor.reads_cons.mp (hText ▸ hOpens.1)).1
    exact ⟨ch, _, next_eq_ok_iff.mpr ⟨hReads, rfl⟩, (opening_eq_ok_iff hReads).mpr ⟨before, after, hOpens⟩⟩

theorem attributeValue_eq_ok_iff {u : Unit}
    (hQuote : quote = CodePoint.doubleQuote ∨ quote = CodePoint.singleQuote) :
    attributeValue quote c = .ok u c' ↔ ∃ value, c.Reads (value ++ [quote]) ∧
      Escaped (isValueChar quote) value ∧ c' = c.advance (value ++ [quote]) := by
  rw [attributeValue, drive_eq_ok_iff]
  constructor
  · rintro ⟨_, hText, hAccepts, rfl⟩
    obtain ⟨value, rfl, hValue⟩ := (AttributeValue.accepts_iff hQuote).mp hAccepts
    exact ⟨value, hText, hValue, rfl⟩
  · rintro ⟨value, hText, hValue, rfl⟩
    exact ⟨_, hText, (AttributeValue.accepts_iff hQuote).mpr ⟨value, rfl, hValue⟩, rfl⟩

theorem text_eq_ok_iff {u : Unit} (hReads : c.Reads [ch]) :
    text ch (c.advance [ch]) = .ok u c' ↔ ∃ run, c.Reads (run ++ [CodePoint.lessThan]) ∧ IsRun run ∧
      c' = c.advance (run ++ [CodePoint.lessThan]) := by
  rw [text, feed_eq_ok_iff hReads]
  constructor
  · rintro ⟨rest, hText, hAccepts, rfl⟩
    obtain ⟨run, hRun, hIsRun⟩ := Text.accepts_plain_iff.mp hAccepts
    rw [hRun] at hText ⊢
    exact ⟨run, hText, hIsRun, rfl⟩
  · rintro ⟨run, hText, hRun, rfl⟩
    obtain ⟨d, rest, hSplit⟩ : ∃ d rest, run ++ [CodePoint.lessThan] = d :: rest :=
      List.exists_cons_of_ne_nil (by simp)
    obtain rfl := hReads.head_eq (hSplit ▸ hText)
    exact ⟨rest, hSplit ▸ hText, Text.accepts_plain_iff.mpr ⟨run, hSplit.symm, hRun⟩, hSplit ▸ rfl⟩

theorem closeValue_eq_ok_iff {u : Unit} :
    closeValue quote c = .ok u c' ↔ c.Reads [quote] ∧ c' = c.advance [quote] := by
  rw [closeValue, bind_eq_ok_iff]
  constructor
  · rintro ⟨b, c₁, hSkip, hRequire⟩
    obtain ⟨rfl, rfl⟩ := require_eq_ok_iff.mp hRequire
    exact skip_eq_ok_true_iff.mp hSkip
  · exact fun h => ⟨true, c', skip_eq_ok_true_iff.mpr h, require_eq_ok_iff.mpr ⟨rfl, rfl⟩⟩

theorem version_eq_ok_true_iff : version c = .ok true c' ↔
    ∃ value, Declaration.IsVersion value ∧ c.Reads value ∧ c' = c.advance value := by
  have hVersion : ∀ value, Declaration.IsVersion value ↔
      ∃ digit ∈ [(0x30 : CodePoint), 0x31], value = CodePoint.ofText "1." ++ [digit] := by
    intro value
    simp only [List.mem_cons, List.not_mem_nil, or_false, exists_eq_or_imp, exists_eq_left]
    exact Iff.rfl
  rw [version, bind_eq_ok_iff]
  simp only [hVersion]
  constructor
  · rintro ⟨b, c₁, hSkip, hRest⟩
    cases b with
    | false => cases (pure_eq_ok_iff.mp hRest).1
    | true =>
      obtain ⟨hLead, rfl⟩ := skipAll_eq_ok_true_iff.mp hSkip
      obtain ⟨digit, hDigit, hReads, rfl⟩ := skipAny_eq_ok_true_iff.mp hRest
      exact ⟨_, ⟨digit, hDigit, rfl⟩, Cursor.reads_append.mpr ⟨hLead, hReads⟩,
        Cursor.advance_append.symm⟩
  · rintro ⟨_, ⟨digit, hDigit, rfl⟩, hReads, rfl⟩
    rw [Cursor.reads_append] at hReads
    exact ⟨true, _, skipAll_eq_ok_true_iff.mpr ⟨hReads.1, rfl⟩,
      skipAny_eq_ok_true_iff.mpr ⟨digit, hDigit, hReads.2, Cursor.advance_append⟩⟩

/-- The answer `no` may follow the beginning of a `yes` that has been given up. -/
theorem standaloneAnswer_eq_ok {n : Nat} (hOk : standaloneAnswer c = .ok n c') :
    ∃ value, c.Reads value ∧ Declaration.IsWord value ∧ n ≤ min 3 value.length ∧ c' = c.advance value := by
  have hYes : ∀ ch ∈ CodePoint.ofText "yes", CodePoint.isLetter ch = true := by decide
  have hNo : ∀ ch ∈ CodePoint.ofText "no", CodePoint.isLetter ch = true := by decide
  rw [standaloneAnswer, bind_eq_ok_iff] at hOk
  obtain ⟨b, c₁, hSkip, hOk⟩ := hOk
  cases b with
  | true =>
    obtain ⟨hReads, rfl⟩ := skipAll_eq_ok_true_iff.mp hSkip
    obtain ⟨rfl, rfl⟩ := pure_eq_ok_iff.mp hOk
    exact ⟨_, hReads, hYes, by decide, rfl⟩
  | false =>
    obtain ⟨found, missing, others, ch, hFound, -, hReads, rfl⟩ := skipAll_eq_ok_false_iff.mp hSkip
    rw [if_neg Bool.false_ne_true, bind_eq_ok_iff] at hOk
    obtain ⟨b, c₁, hSkip, hOk⟩ := hOk
    cases b with
    | false => cases hOk
    | true =>
      obtain ⟨hRest, rfl⟩ := skipAll_eq_ok_true_iff.mp hSkip
      refine ⟨found ++ CodePoint.ofText "no",
        Cursor.reads_append.mpr ⟨(Cursor.reads_append.mp hReads).1, hRest⟩,
        List.forall_mem_append.mpr ⟨fun ch hch => hYes ch ?_, hNo⟩, ?_, ?_⟩
      · exact hFound ▸ List.mem_append_left _ hch
      · rw [(pure_eq_ok_iff.mp hOk).1, List.length_append]
        exact Nat.le_min.mpr ⟨by decide, Nat.le_add_left _ _⟩
      · rw [(pure_eq_ok_iff.mp hOk).2, Cursor.advance_append]

theorem standaloneAnswer_of_reads {value : Chars} (hValue : Declaration.IsAnswer value)
    (hReads : c.Reads value) : standaloneAnswer c = .ok value.length (c.advance value) := by
  rw [standaloneAnswer, bind_eq_ok_iff]
  rcases hValue with rfl | rfl
  · exact ⟨true, _, skipAll_eq_ok_true_iff.mpr ⟨hReads, rfl⟩, rfl⟩
  · refine ⟨false, c, skipAll_eq_ok_false_iff.mpr ⟨[], _, _, 0x6E, rfl, by decide,
      (Cursor.reads_cons.mp hReads).1, rfl⟩, ?_⟩
    rw [if_neg Bool.false_ne_true, bind_eq_ok_iff]
    exact ⟨true, _, skipAll_eq_ok_true_iff.mpr ⟨hReads, rfl⟩, rfl⟩

theorem accepts_label_iff {e : Encoding} {reversed : List Char} {place : Nat} {text : Chars}
    {label : String} (hQuote : EncodingLabel.isAllowed quote = false)
    (hLength : reversed.length ≤ EncodingLabel.maxLength) :
    Automaton.Accepts (fun reversed _ ch => EncodingLabel.step quote reversed ch) e reversed place text
        label ↔
      ∃ value, text = value ++ [quote] ∧ (∀ ch ∈ value, EncodingLabel.isAllowed ch = true) ∧
        reversed.length + value.length ≤ EncodingLabel.maxLength ∧
          label = String.ofList (reversed.reverse ++ value.map Char.ofNat) := by
  induction text generalizing reversed place with
  | nil => simp [Automaton.Accepts]
  | cons ch rest ih =>
    rw [exists_cons_eq_append_iff]
    by_cases hEnd : ch = quote
    · rw [Automaton.accepts_of_done (b := String.ofList reversed.reverse) (if_pos hEnd), or_iff_left]
      · simp [hEnd, hLength]
      · rintro ⟨value, -, hAllowed, -⟩
        rw [← hEnd, (List.forall_mem_cons.mp hAllowed).1] at hQuote
        cases hQuote
    · simp only [List.cons.injEq, hEnd, false_and, false_or, List.forall_mem_cons]
      by_cases hMore : EncodingLabel.isAllowed ch = true ∧ reversed.length < EncodingLabel.maxLength
      · have hStep : EncodingLabel.step quote reversed ch = .more (Char.ofNat ch :: reversed) := by
          rw [EncodingLabel.step, if_neg hEnd, if_pos (by simp [hMore])]
        rw [Automaton.accepts_of_more hStep]
        refine (@ih (Char.ofNat ch :: reversed) _ hMore.2).trans ?_
        simp [hMore.1, Nat.add_assoc, Nat.add_comm 1]
      · have hStep : EncodingLabel.step quote reversed ch = .reject (.encoding .malformedLabel) := by
          rw [EncodingLabel.step, if_neg hEnd, if_neg (by simpa using hMore)]
        rw [Automaton.accepts_of_reject hStep, false_iff]
        rintro ⟨value, -, ⟨hAllowed, -⟩, hBound, -⟩
        rw [List.length_cons] at hBound
        exact hMore ⟨hAllowed, by omega⟩

theorem label_eq_ok_iff {label : String}
    (hQuote : quote = CodePoint.doubleQuote ∨ quote = CodePoint.singleQuote) :
    Scan.label quote c = .ok label c' ↔ ∃ value, c.Reads (value ++ [quote]) ∧
      (∀ ch ∈ value, EncodingLabel.isAllowed ch = true) ∧ value.length ≤ EncodingLabel.maxLength ∧
        label = String.ofList (value.map Char.ofNat) ∧ c' = c.advance (value ++ [quote]) := by
  have hNotAllowed : EncodingLabel.isAllowed quote = false := by
    rcases hQuote with rfl | rfl <;> decide
  rw [Scan.label, drive_eq_ok_iff]
  simp only [@accepts_label_iff _ _ [] _ _ _ hNotAllowed (Nat.zero_le _), List.length_nil, Nat.zero_add,
    List.reverse_nil, List.nil_append]
  constructor
  · rintro ⟨_, hText, ⟨value, rfl, hAllowed, hBound, rfl⟩, rfl⟩
    exact ⟨value, hText, hAllowed, hBound, rfl, rfl⟩
  · rintro ⟨value, hText, hAllowed, hBound, rfl, rfl⟩
    exact ⟨_, hText, ⟨value, rfl, hAllowed, hBound, rfl⟩, rfl⟩

theorem nextSpaced_eq_ok_iff {spaced : Bool} : nextSpaced c = .ok (ch, spaced) c' ↔
    ∃ space, c.Reads (space ++ [ch]) ∧ IsSpace space ∧ CodePoint.isSpace ch = false ∧
      spaced = !space.isEmpty ∧ c' = c.advance (space ++ [ch]) := by
  have hSpaced : ∀ first rest space, first :: rest = space ++ [ch] → IsSpace space →
      CodePoint.isSpace ch = false → CodePoint.isSpace first = !space.isEmpty := by
    intro first rest space hText hSpace hLast
    cases space with
    | nil =>
      rw [(List.cons.inj hText).1, hLast]
      rfl
    | cons d space =>
      rw [(List.cons.inj hText).1, hSpace d List.mem_cons_self]
      rfl
  rw [nextSpaced, bind_eq_ok_iff]
  constructor
  · rintro ⟨first, c₁, hNext, hOk⟩
    obtain ⟨hReads, rfl⟩ := next_eq_ok_iff.mp hNext
    rw [bind_eq_ok_iff] at hOk
    obtain ⟨d, c₁, hSkip, hOk⟩ := hOk
    obtain ⟨space, hText, hSpace, hLast, rfl⟩ := (skipSpace_eq_ok_iff hReads).mp hSkip
    obtain ⟨hPair, rfl⟩ := pure_eq_ok_iff.mp hOk
    obtain ⟨rfl, rfl⟩ := Prod.mk.inj hPair
    obtain ⟨d, rest, hSplit⟩ : ∃ d rest, space ++ [ch] = d :: rest :=
      List.exists_cons_of_ne_nil (by simp)
    obtain rfl := hReads.head_eq (hSplit ▸ hText)
    exact ⟨space, hText, hSpace, hLast, hSpaced _ _ _ hSplit.symm hSpace hLast, rfl⟩
  · rintro ⟨space, hText, hSpace, hLast, rfl, rfl⟩
    obtain ⟨first, rest, hSplit⟩ : ∃ d rest, space ++ [ch] = d :: rest :=
      List.exists_cons_of_ne_nil (by simp)
    have hReads := (Cursor.reads_cons.mp (hSplit ▸ hText)).1
    refine ⟨first, _, next_eq_ok_iff.mpr ⟨hReads, rfl⟩, ?_⟩
    rw [bind_eq_ok_iff]
    refine ⟨ch, _, (skipSpace_eq_ok_iff hReads).mpr ⟨space, hText, hSpace, hLast, rfl⟩, ?_⟩
    rw [pure_eq_ok_iff, hSpaced _ _ _ hSplit.symm hSpace hLast]
    exact ⟨rfl, rfl⟩

theorem tail_eq_ok_iff {found : Tail} : tail c = .ok found c' ↔
    found = .instruction ∧ c.Reads [CodePoint.question] ∧ c' = c.advance [CodePoint.question] ∨
      found = .comment ∧ c.Reads [CodePoint.bang, CodePoint.hyphen, CodePoint.hyphen] ∧
        c' = c.advance [CodePoint.bang, CodePoint.hyphen, CodePoint.hyphen] := by
  have hOpening : tail c = .ok found c' ↔ (do
      if ← skip CodePoint.question then pure .instruction
      else if ← skipAll [CodePoint.bang, CodePoint.hyphen, CodePoint.hyphen] then pure .comment
      else fail .notTerminated : Scan Tail) c = .ok found c' := by
    unfold tail
    simp only
    split
    · rename_i hFault
      rw [hFault]
      simp
    · rfl
  rw [hOpening, bind_eq_ok_iff]
  constructor
  · rintro ⟨b, c₁, hSkip, hRest⟩
    cases b with
    | true =>
      obtain ⟨hReads, rfl⟩ := skip_eq_ok_true_iff.mp hSkip
      obtain ⟨rfl, rfl⟩ := pure_eq_ok_iff.mp hRest
      exact .inl ⟨rfl, hReads, rfl⟩
    | false =>
      obtain ⟨ch, hOther, hReads, rfl⟩ := skip_eq_ok_false_iff.mp hSkip
      rw [if_neg Bool.false_ne_true, bind_eq_ok_iff] at hRest
      obtain ⟨b, c₁, hSkip, hRest⟩ := hRest
      cases b with
      | true =>
        obtain ⟨hReads, rfl⟩ := skipAll_eq_ok_true_iff.mp hSkip
        obtain ⟨rfl, rfl⟩ := pure_eq_ok_iff.mp hRest
        exact .inr ⟨rfl, hReads, rfl⟩
      | false => cases hRest
  · rintro (⟨rfl, hReads, rfl⟩ | ⟨rfl, hReads, rfl⟩)
    · exact ⟨true, _, skip_eq_ok_true_iff.mpr ⟨hReads, rfl⟩, rfl⟩
    · refine ⟨false, c, skip_eq_ok_false_iff.mpr
        ⟨CodePoint.bang, by decide, (Cursor.reads_cons.mp hReads).1, rfl⟩, ?_⟩
      rw [if_neg Bool.false_ne_true, bind_eq_ok_iff]
      exact ⟨true, _, skipAll_eq_ok_true_iff.mpr ⟨hReads, rfl⟩, rfl⟩

end Scan

/-- The document ends here, or in the middle of a character. -/
def Cursor.Ends (c : Cursor) : Prop :=
  c.charAt c.offset = .error .endOfDocument

namespace Scan
variable {c c' : Cursor} {ch : CodePoint}

theorem next_eq_error_iff {fault : Fault} :
    next c = .error fault c' ↔ c.charAt c.offset = .error fault ∧ c' = c := by
  unfold next
  split
  · rename_i hRead
    rw [hRead, EStateM.Result.error.injEq, Except.error.injEq, @eq_comm _ c']
  · rename_i hRead
    rw [hRead]
    simp

theorem nextAfter_eq_error_iff {skipped : CodePoint → Bool} {fault : Fault} :
    nextAfter skipped c = .error fault c' ↔
      ∃ run, c.Reads run ∧ (∀ d ∈ run, skipped d = true) ∧
        (c.advance run).charAt (c.advance run).offset = .error fault ∧ c' = c.advance run := by
  rw [nextAfter]
  generalize hMachine : (fun (_ : Unit) (_ : Nat) ch =>
    if skipped ch then Verdict.more () else Verdict.done ch) = machine
  generalize () = state
  -- A run that meets the fault reads no character at which it would have stopped.
  have hStop : ∀ {c : Cursor} {run : Chars}, c.Reads run →
      (c.advance run).charAt (c.advance run).offset = .error fault → ∀ ch, c.Reads [ch] → run ≠ [] := by
    rintro c _ - hFault ch hReads rfl
    rw [Cursor.advance_nil, Cursor.reads_singleton_iff.mp hReads] at hFault
    cases hFault
  fun_induction drive machine state c with
  | case1 state c fault' c₁ hNext =>
    obtain ⟨hRead, rfl⟩ := next_eq_error_iff.mp hNext
    rw [EStateM.Result.error.injEq]
    constructor
    · rintro ⟨rfl, rfl⟩
      exact ⟨[], Cursor.reads_nil, fun _ h => (List.not_mem_nil h).elim, hRead, rfl⟩
    · rintro ⟨run, hText, -, hFault, rfl⟩
      cases run with
      | nil => exact ⟨Except.error.inj (hRead.symm.trans hFault), rfl⟩
      | cons ch run =>
        rw [(Cursor.reads_singleton_iff.mp (Cursor.reads_cons.mp hText).1)] at hRead
        cases hRead
  | case2 state c ch c₁ hNext state' hMore ih =>
    obtain ⟨hHead, rfl⟩ := next_eq_ok_iff.mp hNext
    have hSkipped : skipped ch = true := by
      rw [← hMachine] at hMore
      dsimp only at hMore
      split at hMore
      · assumption
      · cases hMore
    refine ih.trans ?_
    constructor
    · rintro ⟨run, hText, hRun, hFault, rfl⟩
      exact ⟨ch :: run, Cursor.reads_cons.mpr ⟨hHead, hText⟩,
        List.forall_mem_cons.mpr ⟨hSkipped, hRun⟩, hFault, rfl⟩
    · rintro ⟨run, hText, hRun, hFault, rfl⟩
      cases run with
      | nil => exact absurd rfl (hStop hText hFault ch hHead)
      | cons d run =>
        obtain rfl := hHead.head_eq hText
        exact ⟨run, (Cursor.reads_cons.mp hText).2, (List.forall_mem_cons.mp hRun).2, hFault, rfl⟩
  | case3 state c ch c₁ hNext result hDone =>
    obtain ⟨hHead, rfl⟩ := next_eq_ok_iff.mp hNext
    simp only [reduceCtorEq, false_iff]
    rintro ⟨run, hText, hRun, hFault, -⟩
    cases run with
    | nil => exact hStop hText hFault ch hHead rfl
    | cons d run =>
      obtain rfl := hHead.head_eq hText
      rw [← hMachine] at hDone
      simp only [(List.forall_mem_cons.mp hRun).1, if_true] at hDone
      cases hDone
  | case4 state c ch c₁ hNext fault' hReject =>
    rw [← hMachine] at hReject
    dsimp only at hReject
    split at hReject <;> cases hReject

theorem nextAfterSpace?_eq_ok_some_iff : nextAfterSpace? c = .ok (some ch) c' ↔
    ∃ space, c.Reads (space ++ [ch]) ∧ IsSpace space ∧ CodePoint.isSpace ch = false ∧
      c' = c.advance (space ++ [ch]) := by
  rw [← nextAfterSpace_eq_ok_iff]
  unfold nextAfterSpace?
  cases nextAfterSpace c with
  | ok d c₁ => simp
  | error fault c₁ => cases fault <;> simp

theorem nextAfterSpace?_eq_ok_none_iff : nextAfterSpace? c = .ok none c' ↔
    ∃ space, c.Reads space ∧ IsSpace space ∧ (c.advance space).Ends ∧ c' = c.advance space := by
  refine Iff.trans ?_ (@nextAfter_eq_error_iff _ _ CodePoint.isSpace .endOfDocument)
  unfold nextAfterSpace? nextAfterSpace
  cases nextAfter CodePoint.isSpace c with
  | ok d c₁ => simp
  | error fault c₁ => cases fault <;> simp

end Scan
end XmlIndex
