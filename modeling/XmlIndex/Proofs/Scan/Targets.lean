import XmlIndex.Lexer.Document
import XmlIndex.Proofs.Scan.Names

/-! # Reading targets

The letters of the reserved target are tried one by one, in either case. What they have consumed
when they fail is the beginning of another name.
-/
namespace XmlIndex
set_option autoImplicit false
open Grammar

namespace Grammar
variable {sets : List Chars} {text found rest : Chars}

theorem Matches.length_eq (hMatches : Matches sets text) : text.length = sets.length := by
  induction sets generalizing text with
  | nil =>
    cases text with
    | nil => rfl
    | cons ch text => exact hMatches.elim
  | cons choices sets ih =>
    cases text with
    | nil => exact hMatches.elim
    | cons ch text => exact congrArg Nat.succ (ih hMatches.2)

theorem Matches.exists_choices (hMatches : Matches sets text) {ch : CodePoint} (hch : ch ∈ text) :
    ∃ choices ∈ sets, ch ∈ choices := by
  induction sets generalizing text with
  | nil =>
    rw [List.length_eq_zero_iff.mp hMatches.length_eq] at hch
    cases hch
  | cons choices sets ih =>
    cases text with
    | nil => exact hMatches.elim
    | cons d text =>
      cases hch with
      | head => exact ⟨choices, List.mem_cons_self, hMatches.1⟩
      | tail _ hch =>
        obtain ⟨others, hOthers, h⟩ := ih hMatches.2 hch
        exact ⟨others, List.mem_cons_of_mem _ hOthers, h⟩

/-- How far a text goes with the choices: all the way, or up to a character that is none of them. -/
inductive Progress : List Chars → Chars → Prop where
  | all {sets : List Chars} {found rest : Chars} : Matches sets found → Progress sets (found ++ rest)
  | upTo {before after : List Chars} {choices found rest : Chars} {ch : CodePoint} :
      Matches before found → ch ∉ choices → Progress (before ++ choices :: after) (found ++ ch :: rest)

theorem Progress.cons {choices : Chars} {ch : CodePoint} (hChoice : ch ∈ choices)
    (hRest : Progress sets text) : Progress (choices :: sets) (ch :: text) := by
  cases hRest with
  | all hFound => exact @Progress.all _ (ch :: _) _ ⟨hChoice, hFound⟩
  | upTo hFound hDiffers =>
    exact @Progress.upTo (choices :: _) _ _ (ch :: _) _ _ ⟨hChoice, hFound⟩ hDiffers

theorem progress_of_foreign (hForeign : ∃ d ∈ text, ∀ choices ∈ sets, d ∉ choices) :
    Progress sets text := by
  induction sets generalizing text with
  | nil => exact @Progress.all _ [] _ trivial
  | cons choices sets ih =>
    obtain ⟨d, hd, hForeign⟩ := hForeign
    cases text with
    | nil => cases hd
    | cons ch text =>
      by_cases hChoice : ch ∈ choices
      · have hOther : d ≠ ch := by
          rintro rfl
          exact hForeign choices List.mem_cons_self hChoice
        exact .cons hChoice (ih ⟨d, (List.mem_cons.mp hd).resolve_left hOther,
          fun choices h => hForeign choices (List.mem_cons_of_mem _ h)⟩)
      · exact @Progress.upTo [] _ _ [] _ _ trivial hChoice

end Grammar

namespace Scan
variable {c c' : Cursor} {sets : List Chars}

theorem skipEach_eq_ok_true_iff : skipEach sets c = .ok true c' ↔
    ∃ text, c.Reads text ∧ Matches sets text ∧ c' = c.advance text := by
  induction sets generalizing c with
  | nil =>
    rw [skipEach, pure_eq_ok_iff]
    constructor
    · rintro ⟨-, rfl⟩
      exact ⟨[], Cursor.reads_nil, trivial, rfl⟩
    · rintro ⟨text, -, hMatches, rfl⟩
      rw [List.length_eq_zero_iff.mp hMatches.length_eq]
      exact ⟨rfl, rfl⟩
  | cons choices sets ih =>
    rw [skipEach, bind_eq_ok_iff]
    constructor
    · rintro ⟨b, c₁, hAny, hRest⟩
      cases b with
      | false => cases (pure_eq_ok_iff.mp hRest).1
      | true =>
        obtain ⟨ch, hChoice, hReads, rfl⟩ := skipAny_eq_ok_true_iff.mp hAny
        obtain ⟨text, hText, hMatches, rfl⟩ := ih.mp hRest
        exact ⟨ch :: text, Cursor.reads_cons.mpr ⟨hReads, hText⟩, ⟨hChoice, hMatches⟩, rfl⟩
    · rintro ⟨text, hReads, hMatches, rfl⟩
      cases text with
      | nil => exact hMatches.elim
      | cons ch text =>
        rw [Cursor.reads_cons] at hReads
        exact ⟨true, _, skipAny_eq_ok_true_iff.mpr ⟨ch, hMatches.1, hReads.1, rfl⟩,
          ih.mpr ⟨text, hReads.2, hMatches.2, rfl⟩⟩

theorem skipEach_eq_ok_false_iff (hSets : ∀ choices ∈ sets, choices ≠ []) :
    skipEach sets c = .ok false c' ↔ ∃ before choices after found ch,
      sets = before ++ choices :: after ∧ Matches before found ∧ ch ∉ choices ∧
        c.Reads (found ++ [ch]) ∧ c' = c.advance found := by
  induction sets generalizing c with
  | nil => simp [skipEach, pure_eq_ok_iff]
  | cons first sets ih =>
    rw [skipEach, bind_eq_ok_iff]
    rw [List.forall_mem_cons] at hSets
    constructor
    · rintro ⟨b, c₁, hAny, hRest⟩
      cases b with
      | false =>
        obtain ⟨ch, hOther, hReads, rfl⟩ := (skipAny_eq_ok_false_iff hSets.1).mp hAny
        exact ⟨[], first, sets, [], ch, rfl, trivial, hOther, hReads, (pure_eq_ok_iff.mp hRest).2⟩
      | true =>
        obtain ⟨ch, hChoice, hReads, rfl⟩ := skipAny_eq_ok_true_iff.mp hAny
        obtain ⟨before, choices, after, found, d, rfl, hMatches, hOther, hText, rfl⟩ :=
          (ih hSets.2).mp hRest
        exact ⟨first :: before, choices, after, ch :: found, d, rfl, ⟨hChoice, hMatches⟩, hOther,
          Cursor.reads_cons.mpr ⟨hReads, hText⟩, rfl⟩
    · rintro ⟨before, choices, after, found, ch, hSplit, hMatches, hOther, hReads, rfl⟩
      cases before with
      | nil =>
        obtain ⟨rfl, rfl⟩ := List.cons.inj hSplit
        rw [List.length_eq_zero_iff.mp hMatches.length_eq] at hReads ⊢
        exact ⟨false, c, (skipAny_eq_ok_false_iff hSets.1).mpr ⟨ch, hOther, hReads, rfl⟩,
          pure_eq_ok_iff.mpr ⟨rfl, rfl⟩⟩
      | cons choices' before =>
        obtain ⟨rfl, rfl⟩ := List.cons.inj hSplit
        cases found with
        | nil => exact hMatches.elim
        | cons d found =>
          rw [List.cons_append, Cursor.reads_cons] at hReads
          exact ⟨true, _, skipAny_eq_ok_true_iff.mpr ⟨d, hMatches.1, hReads.1, rfl⟩,
            (ih hSets.2).mpr ⟨before, choices, after, found, ch, rfl, hMatches.2, hOther, hReads.2, rfl⟩⟩

/-- A text that goes with the choices or against them decides the question. -/
theorem skipEach_of_progress {text : Chars} (hSets : ∀ choices ∈ sets, choices ≠ [])
    (hProgress : Progress sets text) (hReads : c.Reads text) :
    (∃ found rest, text = found ++ rest ∧ Matches sets found ∧
        skipEach sets c = .ok true (c.advance found)) ∨
      ∃ before choices after found ch rest, sets = before ++ choices :: after ∧
        text = found ++ ch :: rest ∧ Matches before found ∧ ch ∉ choices ∧
          skipEach sets c = .ok false (c.advance found) := by
  cases hProgress with
  | all hFound =>
    exact .inl ⟨_, _, rfl, hFound,
      skipEach_eq_ok_true_iff.mpr ⟨_, (Cursor.reads_append.mp hReads).1, hFound, rfl⟩⟩
  | @upTo before after choices found rest ch hFound hDiffers =>
    refine .inr ⟨before, choices, after, found, ch, rest, rfl, rfl, hFound, hDiffers, ?_⟩
    rw [show found ++ ch :: rest = (found ++ [ch]) ++ rest by simp, Cursor.reads_append] at hReads
    exact (skipEach_eq_ok_false_iff hSets).mpr
      ⟨before, choices, after, found, ch, rfl, hFound, hDiffers, hReads.1, rfl⟩

theorem isNameStart_of_mem_reserved :
    ∀ choices ∈ Instruction.reserved, ∀ ch ∈ choices, CodePoint.isNameStart ch = true := by
  decide

/-- The reserved letters begin names, and so do the first of them. -/
theorem isName_of_matches_reserved {before after : List Chars} {letters : Chars}
    (hSplit : Instruction.reserved = before ++ after) (hLetters : Matches before letters)
    (hNonempty : letters ≠ []) : IsName letters := by
  have hStart : ∀ ch ∈ letters, CodePoint.isNameStart ch = true := by
    intro ch hch
    obtain ⟨choices, hChoices, hMem⟩ := hLetters.exists_choices hch
    exact isNameStart_of_mem_reserved choices (hSplit ▸ List.mem_append_left _ hChoices) ch hMem
  cases letters with
  | nil => exact absurd rfl hNonempty
  | cons first rest =>
    rw [List.forall_mem_cons] at hStart
    exact ⟨hStart.1, fun ch hch => CodePoint.isName_of_isNameStart (hStart.2 ch hch)⟩

theorem notMem_of_matches_reserved {before after : List Chars} {letters : Chars} {ch : CodePoint}
    (hSplit : Instruction.reserved = before ++ after) (hLetters : Matches before letters)
    (hLast : CodePoint.isName ch = false) : ch ∉ letters := by
  intro hch
  obtain ⟨choices, hChoices, hMem⟩ := hLetters.exists_choices hch
  rw [CodePoint.isName_of_isNameStart (isNameStart_of_mem_reserved choices
    (hSplit ▸ List.mem_append_left _ hChoices) ch hMem)] at hLast
  cases hLast

theorem reserved_ne_nil : ∀ choices ∈ Instruction.reserved, choices ≠ [] := by
  decide

theorem foreign_of_not_isName {text : Chars} {ch : CodePoint} (hLast : CodePoint.isName ch = false) :
    ∃ d ∈ text ++ [ch], ∀ choices ∈ Instruction.reserved, d ∉ choices := by
  refine ⟨ch, List.mem_append_right _ List.mem_cons_self, fun choices hChoices hch => ?_⟩
  rw [CodePoint.isName_of_isNameStart (isNameStart_of_mem_reserved choices hChoices ch hch)] at hLast
  cases hLast

section
variable {first ch : CodePoint}

/-- Letters from a consumed character on, as letters from before it. -/
theorem reservedLetters_of_mem (hReads : c.Reads [first]) (hFirst : first ∈ [(0x78 : CodePoint), 0x58]) :
    reservedLetters first (c.advance [first]) = skipEach Instruction.reserved c := by
  have hAny : skipAny [0x78, 0x58] c = .ok true (c.advance [first]) :=
    skipAny_eq_ok_true_iff.mpr ⟨first, hFirst, hReads, rfl⟩
  have hContains : [(0x78 : CodePoint), 0x58].contains first = true := by simpa using hFirst
  change (if [(0x78 : CodePoint), 0x58].contains first then skipEach _ else pure false) _ = _
  rw [if_pos hContains]
  change _ = EStateM.bind _ _ _
  unfold EStateM.bind
  rw [hAny]
  rfl

theorem reservedLetters_of_notMem (hFirst : first ∉ [(0x78 : CodePoint), 0x58]) :
    reservedLetters first c = .ok false c := by
  change (if [(0x78 : CodePoint), 0x58].contains first then skipEach _ else pure false) _ = _
  rw [if_neg (by simpa using hFirst)]
  rfl

theorem reservedLetters_eq_ok_true_iff (hReads : c.Reads [first]) :
    reservedLetters first (c.advance [first]) = .ok true c' ↔
      ∃ letters, c.Reads letters ∧ Matches Instruction.reserved letters ∧ c' = c.advance letters := by
  by_cases hFirst : first ∈ [(0x78 : CodePoint), 0x58]
  · rw [reservedLetters_of_mem hReads hFirst, skipEach_eq_ok_true_iff]
  · rw [reservedLetters_of_notMem hFirst]
    simp only [EStateM.Result.ok.injEq, reduceCtorEq, false_and, false_iff]
    rintro ⟨letters, hLetters, hMatches, -⟩
    cases letters with
    | nil => exact hMatches
    | cons d letters =>
      obtain rfl := hReads.head_eq hLetters
      exact hFirst hMatches.1

/-- When the letters are others, all that was consumed begins a name. -/
theorem reservedLetters_eq_ok_false (hReads : c.Reads [first])
    (hFirst : CodePoint.isNameStart first = true)
    (hLetters : reservedLetters first (c.advance [first]) = .ok false c') :
    ∃ lead, c.Reads lead ∧ IsName lead ∧ c' = c.advance lead := by
  by_cases hMem : first ∈ [(0x78 : CodePoint), 0x58]
  · rw [reservedLetters_of_mem hReads hMem, skipEach_eq_ok_false_iff reserved_ne_nil] at hLetters
    obtain ⟨before, choices, after, found, d, hSplit, hFound, hOther, hText, rfl⟩ := hLetters
    cases before with
    | nil =>
      obtain ⟨rfl, -⟩ := List.cons.inj hSplit
      rw [List.length_eq_zero_iff.mp hFound.length_eq, List.nil_append] at hText
      obtain rfl := hReads.head_eq hText
      exact absurd hMem hOther
    | cons choices' before =>
      have hNonempty : found ≠ [] := by
        rintro rfl
        exact hFound
      exact ⟨found, (Cursor.reads_append.mp hText).1,
        isName_of_matches_reserved hSplit hFound hNonempty, rfl⟩
  · rw [reservedLetters_of_notMem hMem] at hLetters
    cases hLetters
    exact ⟨[first], hReads, ⟨hFirst, fun _ h => (List.not_mem_nil h).elim⟩, rfl⟩

/-- A name that is read whole decides whether it begins with the letters. -/
theorem reservedLetters_of_reads {target : Chars} (hReads : c.Reads [first])
    (hText : c.Reads (target ++ [ch])) (hTarget : IsName target) (hLast : CodePoint.isName ch = false) :
    (∃ letters more, target = letters ++ more ∧ Matches Instruction.reserved letters ∧
        reservedLetters first (c.advance [first]) = .ok true (c.advance letters)) ∨
      ∃ lead more, target = lead ++ more ∧ lead ≠ [] ∧
        reservedLetters first (c.advance [first]) = .ok false (c.advance lead) := by
  by_cases hMem : first ∈ [(0x78 : CodePoint), 0x58]
  · rw [reservedLetters_of_mem hReads hMem]
    have hProgress := @progress_of_foreign Instruction.reserved _
      (@foreign_of_not_isName target _ hLast)
    rcases skipEach_of_progress reserved_ne_nil hProgress hText with
      ⟨found, rest, hSplit, hFound, hSkip⟩ | ⟨before, choices, after, found, d, rest, hSets, hSplit, hFound, hOther, hSkip⟩
    · obtain ⟨more, rfl⟩ := exists_eq_append_of_concat_eq hSplit
        (notMem_of_matches_reserved (List.append_nil _).symm hFound hLast)
      exact .inl ⟨found, more, rfl, hFound, hSkip⟩
    · obtain ⟨more, rfl⟩ := exists_eq_append_of_concat_eq hSplit
        (notMem_of_matches_reserved hSets hFound hLast)
      refine .inr ⟨found, more, rfl, ?_, hSkip⟩
      rintro rfl
      obtain rfl : before = [] := List.length_eq_zero_iff.mp hFound.length_eq.symm
      rw [hSplit] at hText
      obtain rfl := hReads.head_eq hText
      rw [← (List.cons.inj hSets).1] at hOther
      exact hOther hMem
  · cases target with
    | nil => exact hTarget.elim
    | cons d more =>
      obtain rfl := hReads.head_eq hText
      exact .inr ⟨[d], more, rfl, List.cons_ne_nil _ _, reservedLetters_of_notMem hMem⟩

end

variable {ch first : CodePoint} {lead : Chars}

/-- The rest of a name of which `lead` has been read. -/
theorem nextAfter_isName_eq_ok_iff (hLead : c.Reads lead) :
    nextAfter CodePoint.isName (c.advance lead) = .ok ch c' ↔
      ∃ more, c.Reads (lead ++ more ++ [ch]) ∧ (∀ d ∈ more, CodePoint.isName d = true) ∧
        CodePoint.isName ch = false ∧ c' = c.advance (lead ++ more ++ [ch]) := by
  rw [nextAfter_eq_ok_iff]
  refine exists_congr fun more => ?_
  rw [List.append_assoc, @Cursor.reads_append _ lead, @Cursor.advance_append _ lead,
    and_iff_right hLead]

theorem isName_append {more : Chars} (hLead : IsName lead)
    (hMore : ∀ d ∈ more, CodePoint.isName d = true) : IsName (lead ++ more) := by
  cases lead with
  | nil => exact hLead.elim
  | cons d lead => exact ⟨hLead.1, List.forall_mem_append.mpr ⟨hLead.2, hMore⟩⟩

theorem forall_isName_of_isName_append {more : Chars} (hName : IsName (lead ++ more))
    (hNonempty : lead ≠ []) : ∀ d ∈ more, CodePoint.isName d = true := by
  cases lead with
  | nil => exact absurd rfl hNonempty
  | cons d lead => exact (List.forall_mem_append.mp hName.2).2

theorem eq_nil_of_matches_append {letters more : Chars} (hLetters : Matches sets letters)
    (hLonger : Matches sets (letters ++ more)) : more = [] := by
  have hLength := hLonger.length_eq
  rw [List.length_append, hLetters.length_eq] at hLength
  exact List.length_eq_zero_iff.mp (Nat.add_eq_left.mp hLength)

/-- What follows the reserved letters: a longer name, or at once a character that ends no target. -/
theorem afterReserved_eq_ok_iff (hLead : c.Reads lead) :
    (next >>= fun d => require (d != CodePoint.question && !CodePoint.isSpace d) .reservedTarget >>= fun _ =>
        if CodePoint.isName d then nextAfter CodePoint.isName else pure d) (c.advance lead) = .ok ch c' ↔
      ∃ more, c.Reads (lead ++ more ++ [ch]) ∧ (∀ d ∈ more, CodePoint.isName d = true) ∧
        CodePoint.isName ch = false ∧ (more = [] → ch ≠ CodePoint.question ∧ CodePoint.isSpace ch = false) ∧
          c' = c.advance (lead ++ more ++ [ch]) := by
  rw [bind_eq_ok_iff]
  constructor
  · rintro ⟨d, c₁, hNext, hOk⟩
    obtain ⟨hChar, rfl⟩ := next_eq_ok_iff.mp hNext
    obtain ⟨_, c₁, hRequire, hOk⟩ := bind_eq_ok_iff.mp hOk
    obtain ⟨hOther, rfl⟩ := require_eq_ok_iff.mp hRequire
    have hAll : c.Reads (lead ++ [d]) := Cursor.reads_append.mpr ⟨hLead, hChar⟩
    rw [← Cursor.advance_append] at hOk
    split at hOk
    · rename_i hName
      obtain ⟨more, hText, hMore, hLast, rfl⟩ := (nextAfter_isName_eq_ok_iff hAll).mp hOk
      rw [@List.append_assoc _ lead [d] more, List.singleton_append] at hText ⊢
      exact ⟨d :: more, hText, List.forall_mem_cons.mpr ⟨hName, hMore⟩, hLast, nofun, rfl⟩
    · rename_i hName
      obtain ⟨rfl, rfl⟩ := pure_eq_ok_iff.mp hOk
      rw [← List.append_nil lead] at hAll
      exact ⟨[], hAll, nofun, by simpa using hName, fun _ => by simpa using hOther, by rw [List.append_nil]⟩
  · rintro ⟨more, hText, hMore, hLast, hOther, rfl⟩
    cases more with
    | nil =>
      rw [List.append_nil] at hText ⊢
      obtain ⟨hQuestion, hSpace⟩ := hOther rfl
      refine ⟨ch, _, next_eq_ok_iff.mpr ⟨(Cursor.reads_append.mp hText).2, rfl⟩, bind_eq_ok_iff.mpr
        ⟨(), _, require_eq_ok_iff.mpr ⟨by simp [hQuestion, hSpace], rfl⟩, ?_⟩⟩
      rw [if_neg (by simp [hLast]), pure_eq_ok_iff]
      exact ⟨rfl, Cursor.advance_append⟩
    | cons d more =>
      obtain ⟨hName, hMore⟩ := List.forall_mem_cons.mp hMore
      have hQuestion : d ≠ CodePoint.question := by
        rintro rfl
        exact absurd hName (by decide)
      have hSpace : CodePoint.isSpace d = false := Bool.eq_false_iff.mpr fun h => by
        rw [CodePoint.isName_of_isSpace h] at hName
        cases hName
      have hSplit : lead ++ d :: more ++ [ch] = lead ++ [d] ++ more ++ [ch] := by
        rw [@List.append_assoc _ lead [d] more, List.singleton_append]
      rw [hSplit] at hText ⊢
      have hAll : c.Reads (lead ++ [d]) := (Cursor.reads_append.mp (Cursor.reads_append.mp hText).1).1
      refine ⟨d, _, next_eq_ok_iff.mpr ⟨(Cursor.reads_append.mp hAll).2, rfl⟩, bind_eq_ok_iff.mpr
        ⟨(), _, require_eq_ok_iff.mpr ⟨by simp [hQuestion, hSpace], rfl⟩, ?_⟩⟩
      rw [if_pos hName, ← Cursor.advance_append]
      exact (nextAfter_isName_eq_ok_iff hAll).mpr ⟨more, hText, hMore, hLast, rfl⟩

theorem instructionTarget_eq_ok_iff : instructionTarget c = .ok ch c' ↔
    ∃ target, c.Reads (target ++ [ch]) ∧ IsName target ∧ CodePoint.isName ch = false ∧
      (Matches Instruction.reserved target → ch ≠ CodePoint.question ∧ CodePoint.isSpace ch = false) ∧
        c' = c.advance (target ++ [ch]) := by
  rw [instructionTarget, bind_eq_ok_iff]
  constructor
  · rintro ⟨first, c₁, hNext, hOk⟩
    obtain ⟨hReads, rfl⟩ := next_eq_ok_iff.mp hNext
    obtain ⟨_, c₁, hRequire, hOk⟩ := bind_eq_ok_iff.mp hOk
    obtain ⟨hFirst, rfl⟩ := require_eq_ok_iff.mp hRequire
    obtain ⟨b, c₁, hLetters, hOk⟩ := bind_eq_ok_iff.mp hOk
    cases b with
    | false =>
      have hNone : ∀ letters, c.Reads letters → ¬Matches Instruction.reserved letters := by
        intro letters hText hMatches
        rw [(reservedLetters_eq_ok_true_iff hReads).mpr ⟨letters, hText, hMatches, rfl⟩] at hLetters
        cases hLetters
      obtain ⟨lead, hLead, hName, rfl⟩ := reservedLetters_eq_ok_false hReads hFirst hLetters
      obtain ⟨more, hText, hMore, hLast, rfl⟩ := (nextAfter_isName_eq_ok_iff hLead).mp hOk
      exact ⟨lead ++ more, hText, isName_append hName hMore, hLast,
        fun hMatches => absurd hMatches (hNone _ (Cursor.reads_append.mp hText).1), rfl⟩
    | true =>
      obtain ⟨letters, hLead, hMatches, rfl⟩ := (reservedLetters_eq_ok_true_iff hReads).mp hLetters
      obtain ⟨more, hText, hMore, hLast, hOther, rfl⟩ := (afterReserved_eq_ok_iff hLead).mp hOk
      have hName := isName_of_matches_reserved (List.append_nil _).symm hMatches (by rintro rfl; exact hMatches)
      exact ⟨letters ++ more, hText, isName_append hName hMore, hLast,
        fun hLonger => hOther (eq_nil_of_matches_append hMatches hLonger), rfl⟩
  · rintro ⟨target, hText, hTarget, hLast, hOther, rfl⟩
    obtain ⟨first, rest, hSplit⟩ := List.exists_cons_of_ne_nil hTarget.ne_nil
    have hReads : c.Reads [first] := (Cursor.reads_cons.mp (hSplit ▸ hText)).1
    have hFirst : CodePoint.isNameStart first = true := (hSplit ▸ hTarget : IsName (first :: rest)).1
    refine ⟨first, _, next_eq_ok_iff.mpr ⟨hReads, rfl⟩, bind_eq_ok_iff.mpr
      ⟨(), _, require_eq_ok_iff.mpr ⟨hFirst, rfl⟩, bind_eq_ok_iff.mpr ?_⟩⟩
    rcases reservedLetters_of_reads hReads hText hTarget hLast with
      ⟨letters, more, rfl, hMatches, hLetters⟩ | ⟨lead, more, rfl, hNonempty, hLetters⟩
    · have hLead := (Cursor.reads_append.mp (Cursor.reads_append.mp hText).1).1
      have hMore := forall_isName_of_isName_append hTarget (by rintro rfl; exact hMatches)
      refine ⟨true, _, hLetters, (afterReserved_eq_ok_iff hLead).mpr ⟨more, hText, hMore, hLast, ?_, rfl⟩⟩
      rintro rfl
      exact hOther ((List.append_nil letters).symm ▸ hMatches)
    · have hLead := (Cursor.reads_append.mp (Cursor.reads_append.mp hText).1).1
      have hMore := forall_isName_of_isName_append hTarget hNonempty
      exact ⟨false, _, hLetters, (nextAfter_isName_eq_ok_iff hLead).mpr ⟨more, hText, hMore, hLast, rfl⟩⟩

abbrev opening : List Chars :=
  [CodePoint.question] :: Instruction.reserved

theorem opening_ne_nil : ∀ choices ∈ opening, choices ≠ [] := by
  decide

theorem matches_opening_iff {text : Chars} : Matches opening text ↔
    ∃ letters, text = CodePoint.question :: letters ∧ Matches Instruction.reserved letters := by
  constructor
  · intro hText
    cases text with
    | nil => exact hText.elim
    | cons d letters => exact ⟨letters, by rw [List.mem_singleton.mp hText.1], hText.2⟩
  · rintro ⟨letters, rfl, hLetters⟩
    exact ⟨List.mem_singleton.mpr rfl, hLetters⟩

/-- After the letters of a declaration comes a space, or else they begin another target. -/
theorem opensDeclaration_eq_ok_iff {opens : Bool} : opensDeclaration c = .ok opens c' ↔
    (∃ letters ch, c.Reads (CodePoint.question :: (letters ++ [ch])) ∧
        Matches Instruction.reserved letters ∧ ch ≠ CodePoint.question ∧
          opens = CodePoint.isSpace ch ∧ c' = c.advance (CodePoint.question :: (letters ++ [ch]))) ∨
      opens = false ∧ skipEach opening c = .ok false c' := by
  rw [opensDeclaration, bind_eq_ok_iff]
  constructor
  · rintro ⟨b, c₁, hSkip, hRest⟩
    cases b with
    | false =>
      obtain ⟨rfl, rfl⟩ := pure_eq_ok_iff.mp hRest
      exact .inr ⟨rfl, hSkip⟩
    | true =>
      obtain ⟨text, hText, hMatches, rfl⟩ := skipEach_eq_ok_true_iff.mp hSkip
      obtain ⟨letters, rfl, hLetters⟩ := matches_opening_iff.mp hMatches
      rw [if_pos rfl, bind_eq_ok_iff] at hRest
      obtain ⟨ch, c₁, hNext, hRest⟩ := hRest
      obtain ⟨hChar, rfl⟩ := next_eq_ok_iff.mp hNext
      rw [bind_eq_ok_iff] at hRest
      obtain ⟨_, c₁, hRequire, hRest⟩ := hRest
      obtain ⟨hOther, rfl⟩ := require_eq_ok_iff.mp hRequire
      obtain ⟨rfl, rfl⟩ := pure_eq_ok_iff.mp hRest
      refine .inl ⟨letters, ch, ?_, hLetters, by simpa using hOther, rfl, ?_⟩
      · rw [← List.cons_append, Cursor.reads_append]
        exact ⟨hText, hChar⟩
      · rw [← List.cons_append, Cursor.advance_append]
  · rintro (⟨letters, ch, hText, hLetters, hOther, rfl, rfl⟩ | ⟨rfl, hSkip⟩)
    · rw [← List.cons_append, Cursor.reads_append] at hText
      refine ⟨true, _, skipEach_eq_ok_true_iff.mpr
        ⟨_, hText.1, matches_opening_iff.mpr ⟨letters, rfl, hLetters⟩, rfl⟩, ?_⟩
      rw [if_pos rfl, bind_eq_ok_iff]
      refine ⟨ch, _, next_eq_ok_iff.mpr ⟨hText.2, rfl⟩, ?_⟩
      rw [bind_eq_ok_iff]
      refine ⟨(), _, require_eq_ok_iff.mpr ⟨by simpa using hOther, rfl⟩, pure_eq_ok_iff.mpr ⟨rfl, ?_⟩⟩
      rw [← List.cons_append, Cursor.advance_append]
    · exact ⟨false, _, hSkip, pure_eq_ok_iff.mpr ⟨rfl, rfl⟩⟩

theorem exists_advance_of_opensDeclaration {opens : Bool} (hOk : opensDeclaration c = .ok opens c') :
    ∃ text, c' = c.advance text := by
  rcases opensDeclaration_eq_ok_iff.mp hOk with ⟨letters, ch, -, -, -, -, rfl⟩ | ⟨-, hSkip⟩
  · exact ⟨_, rfl⟩
  · obtain ⟨-, -, -, found, -, -, -, -, -, rfl⟩ := (skipEach_eq_ok_false_iff opening_ne_nil).mp hSkip
    exact ⟨found, rfl⟩

theorem opensDeclaration_of_ne (hReads : c.Reads [ch]) (hOther : ch ≠ CodePoint.question) :
    opensDeclaration c = .ok false c :=
  opensDeclaration_eq_ok_iff.mpr (.inr ⟨rfl, (skipEach_eq_ok_false_iff opening_ne_nil).mpr
    ⟨[], _, _, [], ch, rfl, trivial, by simpa using hOther, hReads, rfl⟩⟩)

/-- An instruction opens no declaration. -/
theorem opensDeclaration_of_target {target : Chars}
    (hText : c.Reads (CodePoint.question :: (target ++ [ch]))) (hTarget : Markup.IsTarget target)
    (hLast : CodePoint.isName ch = false) : ∃ c', opensDeclaration c = .ok false c' := by
  have hProgress : Progress opening (CodePoint.question :: (target ++ [ch])) :=
    .cons (List.mem_singleton.mpr rfl) (progress_of_foreign (foreign_of_not_isName hLast))
  rcases skipEach_of_progress opening_ne_nil hProgress hText with
    ⟨found, rest, hSplit, hFound, -⟩ | ⟨_, _, _, _, _, _, -, -, -, -, hSkip⟩
  · obtain ⟨letters, rfl, hLetters⟩ := matches_opening_iff.mp hFound
    have hNonempty : letters ≠ [] := by
      rintro rfl
      exact hLetters
    obtain ⟨more, rfl⟩ := exists_eq_append_of_concat_eq (List.cons.inj hSplit).2
      (notMem_of_matches_reserved (List.append_nil _).symm hLetters hLast)
    have hMore := forall_isName_of_isName_append hTarget.1 hNonempty
    cases more with
    | nil => exact absurd (by simpa using hLetters) hTarget.2
    | cons d more =>
      have hd := (List.forall_mem_cons.mp hMore).1
      have hAll : c.Reads (CodePoint.question :: (letters ++ [d]) ++ (more ++ [ch])) := by
        simpa using hText
      have hSpace : CodePoint.isSpace d = false := by
        cases hSpace : CodePoint.isSpace d with
        | false => rfl
        | true =>
          rw [CodePoint.isName_of_isSpace hSpace] at hd
          cases hd
      refine ⟨_, opensDeclaration_eq_ok_iff.mpr (.inl ⟨letters, d, (Cursor.reads_append.mp hAll).1,
        hLetters, ?_, hSpace.symm, rfl⟩)⟩
      rintro rfl
      exact absurd hd (by decide)
  · exact ⟨_, opensDeclaration_eq_ok_iff.mpr (.inr ⟨rfl, hSkip⟩)⟩

end Scan
end XmlIndex
