import XmlIndex.Lexer.Element
import XmlIndex.Proofs.Grammar.Syntax
import XmlIndex.Proofs.Scan.Outcome

/-! # What the automata accept

For each automaton, the texts over which it accepts. A state other than the first stands for what
has been read but may still belong to the terminator, so its language is that of the first state
with those characters put back.
-/
namespace XmlIndex
set_option autoImplicit false
open Grammar

namespace Grammar
variable {terminator after body rest text : Chars} {ch : CodePoint}

theorem endsFirst_nil (hNonempty : terminator ≠ []) : EndsFirst terminator [] := by
  intro hInfix
  have hLength := hInfix.length_le
  have := List.length_pos_iff.mpr hNonempty
  rw [List.nil_append, List.length_dropLast] at hLength
  omega

theorem prefix_dropLast_iff (hNonempty : terminator ≠ []) :
    terminator <+: ch :: (body ++ terminator.dropLast) ↔
      terminator <+: ch :: (body ++ (terminator ++ after)) := by
  have hExtends : ch :: (body ++ terminator.dropLast) <+: ch :: (body ++ (terminator ++ after)) := by
    rw [← List.cons_append, ← List.cons_append, List.prefix_append_right_inj]
    exact (List.dropLast_prefix _).trans (List.prefix_append _ _)
  constructor
  · exact fun h => h.trans hExtends
  · intro h
    refine List.prefix_of_prefix_length_le h hExtends ?_
    have := List.length_pos_iff.mpr hNonempty
    rw [List.length_cons, List.length_append, List.length_dropLast]
    omega

theorem endsFirst_cons (hNonempty : terminator ≠ []) :
    EndsFirst terminator (ch :: body) ↔
      ¬terminator <+: ch :: (body ++ (terminator ++ after)) ∧ EndsFirst terminator body := by
  rw [EndsFirst, List.cons_append, List.infix_cons_iff, not_or, prefix_dropLast_iff hNonempty]
  exact Iff.rfl

/-- A valid body up to the first terminator, and what must follow that. -/
def UpTo (terminator after text : Chars) : Prop :=
  ∃ body, text = body ++ (terminator ++ after) ∧ IsValid body ∧ EndsFirst terminator body

theorem not_upTo_nil (hNonempty : terminator ≠ []) : ¬UpTo terminator after [] := by
  rintro ⟨body, hText, -⟩
  rw [eq_comm, List.append_eq_nil_iff, List.append_eq_nil_iff] at hText
  exact hNonempty hText.2.1

theorem upTo_cons (hNonempty : terminator ≠ []) : UpTo terminator after (ch :: text) ↔
    ch :: text = terminator ++ after ∨
      CodePoint.isValid ch = true ∧ ¬terminator <+: ch :: text ∧ UpTo terminator after text := by
  constructor
  · rintro ⟨body, hText, hValid, hFirst⟩
    cases body with
    | nil => exact .inl hText
    | cons d body =>
      obtain ⟨rfl, rfl⟩ := List.cons.inj hText
      rw [@endsFirst_cons terminator after body ch hNonempty] at hFirst
      exact .inr ⟨hValid ch List.mem_cons_self, hFirst.1, body, rfl,
        fun d hd => hValid d (List.mem_cons_of_mem _ hd), hFirst.2⟩
  · rintro (hText | ⟨hHead, hHere, body, rfl, hValid, hFirst⟩)
    · exact ⟨[], hText, fun _ h => (List.not_mem_nil h).elim, endsFirst_nil hNonempty⟩
    · exact ⟨ch :: body, rfl, List.forall_mem_cons.mpr ⟨hHead, hValid⟩,
        (endsFirst_cons hNonempty).mpr ⟨hHere, hFirst⟩⟩

theorem exists_cons_eq_append_iff {P : Chars → Prop} :
    (∃ body, ch :: text = body ++ rest ∧ P body) ↔
      ch :: text = rest ∧ P [] ∨ ∃ body, text = body ++ rest ∧ P (ch :: body) := by
  constructor
  · rintro ⟨body, hText, hBody⟩
    cases body with
    | nil => exact .inl ⟨hText, hBody⟩
    | cons d body =>
      obtain ⟨rfl, rfl⟩ := List.cons.inj hText
      exact .inr ⟨body, rfl, hBody⟩
  · rintro (⟨hText, hBody⟩ | ⟨body, rfl, hBody⟩)
    · exact ⟨[], hText, hBody⟩
    · exact ⟨ch :: body, rfl, hBody⟩

/-- A text without the last character of another begins within the rest of it. -/
theorem exists_eq_append_of_concat_eq {found : Chars} (hText : text ++ [ch] = found ++ rest)
    (hAbsent : ch ∉ found) : ∃ more, text = found ++ more := by
  rcases List.append_eq_append_iff.mp hText with ⟨others, hFound, hLast⟩ | ⟨more, hText, -⟩
  · cases others with
    | nil => exact ⟨[], by rw [hFound, List.append_nil, List.append_nil]⟩
    | cons d others =>
      rw [hFound, (List.cons.inj hLast).1] at hAbsent
      exact absurd (List.mem_append_right _ List.mem_cons_self) hAbsent
  · exact ⟨more, hText⟩

theorem isValid_cons : IsValid (ch :: text) ↔ CodePoint.isValid ch = true ∧ IsValid text :=
  List.forall_mem_cons

theorem isValid_nil : IsValid [] :=
  fun _ h => (List.not_mem_nil h).elim

/-- Where the first character of a pattern does not stand, the pattern does not begin. -/
theorem infix_append_iff_of_notMem {first : CodePoint} {pattern : Chars} (hAbsent : first ∉ body) :
    first :: pattern <:+: body ++ rest ↔ first :: pattern <:+: rest := by
  induction body with
  | nil => exact Iff.rfl
  | cons ch body ih =>
    rw [List.mem_cons, not_or] at hAbsent
    rw [List.cons_append, List.infix_cons_iff, List.cons_prefix_cons, ih hAbsent.2]
    exact or_iff_right fun h => hAbsent.1 h.1

theorem prefix_concat_iff {pattern : Chars} (hAbsent : ch ∉ pattern) :
    pattern <+: text ++ [ch] ↔ pattern <+: text := by
  rw [List.prefix_concat_iff]
  refine or_iff_right ?_
  rintro rfl
  exact hAbsent (List.mem_append_right _ List.mem_cons_self)

end Grammar

namespace Scan
variable {e : Encoding} {place : Nat} {text : Chars}

theorem accepts_nextAfter_iff {skipped : CodePoint → Bool} {ch : CodePoint} :
    Automaton.Accepts (fun _ _ ch => if skipped ch then .more () else .done ch) e () place text ch ↔
      ∃ run, text = run ++ [ch] ∧ (∀ d ∈ run, skipped d = true) ∧ skipped ch = false := by
  induction text generalizing place with
  | nil => simp [Automaton.Accepts]
  | cons d rest ih =>
    by_cases hSkipped : skipped d = true
    · rw [Automaton.accepts_of_more (t := ()) (by rw [if_pos hSkipped]), ih]
      constructor
      · rintro ⟨run, rfl, hRun, hLast⟩
        exact ⟨d :: run, rfl, List.forall_mem_cons.mpr ⟨hSkipped, hRun⟩, hLast⟩
      · rintro ⟨run, hText, hRun, hLast⟩
        cases run with
        | nil =>
          obtain ⟨rfl, -⟩ := List.cons.inj hText
          rw [hSkipped] at hLast
          cases hLast
        | cons _ run =>
          obtain ⟨rfl, rfl⟩ := List.cons.inj hText
          exact ⟨run, rfl, (List.forall_mem_cons.mp hRun).2, hLast⟩
    · rw [Automaton.accepts_of_done (b := d) (by rw [if_neg hSkipped])]
      rw [Bool.not_eq_true] at hSkipped
      constructor
      · rintro ⟨rfl, rfl⟩
        exact ⟨[], rfl, fun _ h => (List.not_mem_nil h).elim, hSkipped⟩
      · rintro ⟨run, hText, hRun, hLast⟩
        cases run with
        | nil =>
          obtain ⟨rfl, rfl⟩ := List.cons.inj hText
          exact ⟨rfl, rfl⟩
        | cons _ run =>
          obtain ⟨rfl, rfl⟩ := List.cons.inj hText
          rw [(List.forall_mem_cons.mp hRun).1] at hSkipped
          cases hSkipped

end Scan

namespace Comment

def State.pending : State → Chars
  | .body => []
  | .hyphen => [CodePoint.hyphen]
  | .hyphens => [CodePoint.hyphen, CodePoint.hyphen]

theorem accepts_iff {e : Encoding} {state : State} {place : Nat} {text : Chars} :
    Automaton.Accepts (fun state _ ch => step state ch) e state place text () ↔
      UpTo [CodePoint.hyphen, CodePoint.hyphen] [CodePoint.greaterThan] (state.pending ++ text) := by
  have hHyphenValid : CodePoint.isValid CodePoint.hyphen = true := by decide
  induction text generalizing state place with
  | nil =>
    refine iff_of_false Automaton.not_accepts_nil ?_
    cases state <;> simp [State.pending, upTo_cons, not_upTo_nil]
  | cons ch rest ih =>
    cases state with
    | hyphens =>
      by_cases hEnd : ch = CodePoint.greaterThan
      · rw [Automaton.accepts_of_done (if_pos hEnd)]
        simp [State.pending, upTo_cons, hEnd]
      · rw [Automaton.accepts_of_reject (if_neg hEnd)]
        simp [State.pending, upTo_cons, hEnd]
    | body | hyphen =>
      by_cases hValid : CodePoint.isValid ch = true
      · by_cases hHyphen : ch = CodePoint.hyphen
        · subst hHyphen
          rw [Automaton.accepts_of_more (by simp [step, hHyphenValid]; rfl)]
          exact ih
        · rw [Automaton.accepts_of_more (t := .body) (by simp [step, hValid, hHyphen])]
          refine ih.trans ?_
          simp [State.pending, upTo_cons, hValid, hHyphen, hHyphenValid, Ne.symm hHyphen]
      · have hDiffers : ch ≠ CodePoint.hyphen := fun h => hValid (h ▸ hHyphenValid)
        rw [Automaton.accepts_of_reject (by simp [step, hValid]; rfl)]
        simp [State.pending, upTo_cons, hValid, hDiffers]

end Comment

namespace CharacterSection

def State.pending : State → Chars
  | .body => []
  | .bracket => [CodePoint.rightBracket]
  | .brackets => [CodePoint.rightBracket, CodePoint.rightBracket]

abbrev terminator : Chars :=
  [CodePoint.rightBracket, CodePoint.rightBracket, CodePoint.greaterThan]

theorem accepts_iff {e : Encoding} {state : State} {place : Nat} {text : Chars} :
    Automaton.Accepts (fun state _ ch => step state ch) e state place text () ↔
      UpTo terminator [] (state.pending ++ text) := by
  have hBracketValid : CodePoint.isValid CodePoint.rightBracket = true := by decide
  have hEndValid : CodePoint.isValid CodePoint.greaterThan = true := by decide
  induction text generalizing state place with
  | nil =>
    refine iff_of_false Automaton.not_accepts_nil ?_
    cases state <;> simp [State.pending, upTo_cons, not_upTo_nil]
  | cons ch rest ih =>
    by_cases hBracket : ch = CodePoint.rightBracket
    · subst hBracket
      cases state with
      | body | bracket =>
        rw [Automaton.accepts_of_more (by simp [step, hBracketValid]; rfl)]
        exact ih
      | brackets =>
        rw [Automaton.accepts_of_more (t := .brackets) (by simp [step, hBracketValid])]
        refine ih.trans ?_
        have hDiffers : CodePoint.rightBracket ≠ CodePoint.greaterThan := by decide
        simp [State.pending, @upTo_cons _ _ (CodePoint.rightBracket :: _ :: rest), hBracketValid,
          hDiffers, hDiffers.symm]
    · by_cases hValid : CodePoint.isValid ch = true
      · by_cases hEnd : ch = CodePoint.greaterThan ∧ state = .brackets
        · obtain ⟨rfl, rfl⟩ := hEnd
          rw [Automaton.accepts_of_done (b := ()) (by simp only [step, hValid]; rfl)]
          simp [State.pending, upTo_cons, Ne.symm hBracket]
        · have hStep : step state ch = .more .body := by
            cases state <;> simp_all [step]
          rw [Automaton.accepts_of_more hStep]
          refine ih.trans ?_
          cases state <;>
            simp_all [State.pending, upTo_cons, Ne.symm hBracket, @eq_comm _ CodePoint.greaterThan]
      · have hDiffers : ch ≠ CodePoint.greaterThan := fun h => hValid (h ▸ hEndValid)
        rw [Automaton.accepts_of_reject (by simp [step, hValid]; rfl)]
        cases state <;> simp [State.pending, upTo_cons, hValid, hBracket, hDiffers]

end CharacterSection

namespace Instruction

abbrev terminator : Chars :=
  [CodePoint.question, CodePoint.greaterThan]

def pending (question : Bool) : Chars :=
  if question then [CodePoint.question] else []

theorem accepts_iff {e : Encoding} {question : Bool} {place : Nat} {text : Chars} :
    Automaton.Accepts (fun question _ ch => step question ch) e question place text () ↔
      UpTo terminator [] (pending question ++ text) := by
  have hQuestionValid : CodePoint.isValid CodePoint.question = true := by decide
  have hDiffers : CodePoint.question ≠ CodePoint.greaterThan := by decide
  induction text generalizing question place with
  | nil =>
    refine iff_of_false Automaton.not_accepts_nil ?_
    cases question <;> simp [pending, upTo_cons, not_upTo_nil]
  | cons ch rest ih =>
    by_cases hEnd : ch = CodePoint.greaterThan ∧ question = true
    · obtain ⟨rfl, rfl⟩ := hEnd
      rw [Automaton.accepts_of_done (b := ()) rfl]
      simp [pending, upTo_cons, hDiffers]
    · by_cases hValid : CodePoint.isValid ch = true
      · have hStep : step question ch = .more (decide (ch = CodePoint.question)) := by
          cases question <;> simp_all [step]
        rw [Automaton.accepts_of_more hStep]
        refine ih.trans ?_
        by_cases hQuestion : ch = CodePoint.question
        · subst hQuestion
          cases question <;>
            simp [pending, @upTo_cons _ _ (_ :: rest), hDiffers, hDiffers.symm, hQuestionValid]
        · cases question <;>
            simp_all [pending, upTo_cons, Ne.symm hQuestion, @eq_comm _ CodePoint.greaterThan]
      · have hQuestion : ch ≠ CodePoint.question := fun h => hValid (h ▸ hQuestionValid)
        rw [Automaton.accepts_of_reject (by simp [step, hValid]; rfl)]
        cases question <;>
          simp_all [pending, upTo_cons, @eq_comm _ CodePoint.greaterThan]

end Instruction

namespace DocumentType

def Closes (opened : Nat) (body : Chars) : Prop :=
  (∀ start, start <+: body →
      start.count CodePoint.greaterThan ≤ start.count CodePoint.lessThan + opened) ∧
    body.count CodePoint.greaterThan = body.count CodePoint.lessThan + opened

theorem closes_nil {opened : Nat} : Closes opened [] ↔ opened = 0 := by
  simp [Closes, eq_comm]

theorem forall_prefix_cons {ch : CodePoint} {body : Chars} {P : Chars → Prop} :
    (∀ start, start <+: ch :: body → P start) ↔ P [] ∧ ∀ start, start <+: body → P (ch :: start) := by
  constructor
  · exact fun h => ⟨h [] List.nil_prefix, fun start hs => h _ (List.cons_prefix_cons.mpr ⟨rfl, hs⟩)⟩
  · rintro ⟨hNil, hCons⟩ start hs
    cases start with
    | nil => exact hNil
    | cons d start =>
      obtain ⟨hHead, hTail⟩ := List.cons_prefix_cons.mp hs
      exact hHead ▸ hCons start hTail

theorem closes_greaterThan_cons {opened : Nat} {body : Chars} :
    Closes opened (CodePoint.greaterThan :: body) ↔ 0 < opened ∧ Closes (opened - 1) body := by
  have hDiffers : CodePoint.greaterThan ≠ CodePoint.lessThan := by decide
  unfold Closes
  rw [forall_prefix_cons]
  simp only [List.count_cons_self, List.count_cons_of_ne hDiffers, List.count_nil]
  constructor
  · rintro ⟨⟨-, hStart⟩, hAll⟩
    have hOpened := hStart [] List.nil_prefix
    rw [List.count_nil, List.count_nil] at hOpened
    exact ⟨by omega, fun start hs => by have := hStart start hs; omega, by omega⟩
  · rintro ⟨hOpened, hStart, hAll⟩
    exact ⟨⟨by omega, fun start hs => by have := hStart start hs; omega⟩, by omega⟩

theorem closes_lessThan_cons {opened : Nat} {body : Chars} :
    Closes opened (CodePoint.lessThan :: body) ↔ Closes (opened + 1) body := by
  have hDiffers : CodePoint.lessThan ≠ CodePoint.greaterThan := by decide
  unfold Closes
  rw [forall_prefix_cons]
  simp only [List.count_cons_self, List.count_cons_of_ne hDiffers, List.count_nil]
  constructor
  · rintro ⟨⟨-, hStart⟩, hAll⟩
    exact ⟨fun start hs => by have := hStart start hs; omega, by omega⟩
  · rintro ⟨hStart, hAll⟩
    exact ⟨⟨by omega, fun start hs => by have := hStart start hs; omega⟩, by omega⟩

theorem closes_cons_of_ne {opened : Nat} {ch : CodePoint} {body : Chars}
    (hGreater : ch ≠ CodePoint.greaterThan) (hLess : ch ≠ CodePoint.lessThan) :
    Closes opened (ch :: body) ↔ Closes opened body := by
  unfold Closes
  rw [forall_prefix_cons]
  simp [List.count_cons_of_ne hGreater, List.count_cons_of_ne hLess]

theorem accepts_iff {e : Encoding} {opened place : Nat} {text : Chars} :
    Automaton.Accepts (fun opened _ ch => step opened ch) e (opened + 1) place text () ↔
      ∃ body, text = body ++ [CodePoint.greaterThan] ∧ IsValid body ∧ Closes opened body := by
  have hEndValid : CodePoint.isValid CodePoint.greaterThan = true := by decide
  induction text generalizing opened place with
  | nil => simp [Automaton.Accepts]
  | cons ch rest ih =>
    rw [exists_cons_eq_append_iff]
    simp only [isValid_cons]
    by_cases hValid : CodePoint.isValid ch = true
    · by_cases hGreater : ch = CodePoint.greaterThan
      · subst hGreater
        simp only [closes_greaterThan_cons, closes_nil]
        cases opened with
        | zero =>
          rw [Automaton.accepts_of_done (b := ()) (by simp [step, hEndValid])]
          simp [isValid_nil]
        | succ opened =>
          rw [Automaton.accepts_of_more (t := opened + 1) (by simp [step, hEndValid])]
          refine ih.trans ?_
          simp [hEndValid]
      · by_cases hLess : ch = CodePoint.lessThan
        · subst hLess
          rw [Automaton.accepts_of_more (t := opened + 1 + 1)
            (by simp [step, hValid, hGreater])]
          refine ih.trans ?_
          simp [closes_lessThan_cons, hGreater, hValid]
        · rw [Automaton.accepts_of_more (t := opened + 1)
            (by simp [step, hValid, hGreater, hLess])]
          refine ih.trans ?_
          simp [closes_cons_of_ne hGreater hLess, hGreater, hValid]
    · rw [Automaton.accepts_of_reject (by simp [step, hValid]; rfl)]
      simp [hValid]
      rintro rfl
      exact absurd hEndValid hValid

theorem closes_zero_iff {body : Chars} : Closes 0 body ↔ Balanced body :=
  Iff.rfl

end DocumentType

end XmlIndex
