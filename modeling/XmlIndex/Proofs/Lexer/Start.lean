import XmlIndex.Proofs.Lexer.Awaiting
import XmlIndex.Proofs.Lexer.Declaration

/-! # The start of a document

A document starts with a declaration, or else with space, be it none. Whatever it is, it is of ASCII,
so it reads alike under the encoding that it declares.
-/
namespace XmlIndex
set_option autoImplicit false
open Grammar

namespace Lex
variable {s s' : Lexer} {u : Unit} {space : Chars}

section
open Declaration (optionalText)
variable {ch : CodePoint}

theorem reaches_of_optionalEncoding {spaced : Bool} (hOk : optionalEncoding s = .ok (ch, spaced) s') :
    ∃ encoding t space, (∀ a, encoding = some a → Declaration.Part "encoding" Declaration.IsLabel a) ∧
      s.Reaches (optionalText encoding) t ∧ t.cursor.Reads (space ++ [ch]) ∧ IsSpace space ∧
        spaced = !space.isEmpty ∧ s' = t.past (space ++ [ch]) := by
  rw [optionalEncoding, bind_eq_ok_iff] at hOk
  obtain ⟨⟨next, _⟩, _, hNext, hOk⟩ := hOk
  obtain ⟨space, hReads, hSpace, -, rfl, rfl⟩ := read_nextSpaced_eq_ok_iff.mp hNext
  split at hOk
  · rename_i hFound
    rw [Bool.and_eq_true, decide_eq_true_eq] at hFound
    obtain ⟨hSpaced, hFirst⟩ := hFound
    obtain rfl : next = 0x65 := hFirst
    have hNonempty : space ≠ [] := by
      rintro rfl
      cases hSpaced
    obtain ⟨_, _, hEncoding, hNext⟩ := bind_eq_ok_iff.mp hOk
    obtain ⟨a, hPart, hReaches⟩ := reaches_of_encodingDeclaration hReads hSpace hNonempty hEncoding
    obtain ⟨space, hReads, hSpace, -, rfl, rfl⟩ := read_nextSpaced_eq_ok_iff.mp hNext
    refine ⟨some a, _, space, ?_, hReaches, hReads, hSpace, rfl, rfl⟩
    rintro _ ⟨⟩
    exact hPart
  · obtain ⟨hSame, rfl⟩ := pure_eq_ok_iff.mp hOk
    cases hSame
    exact ⟨none, s, space, nofun, Lexer.reaches_past (fun _ h => (List.not_mem_nil h).elim) Cursor.reads_nil,
      hReads, hSpace, rfl, rfl⟩

theorem reaches_of_optionalDeclarations (hOk : optionalDeclarations s = .ok ch s') :
    ∃ encoding standalone t space,
      (∀ a, encoding = some a → Declaration.Part "encoding" Declaration.IsLabel a) ∧
        (∀ a, standalone = some a → Declaration.Part "standalone" Declaration.IsWord a) ∧
          s.Reaches (optionalText encoding ++ optionalText standalone) t ∧ t.cursor.Reads (space ++ [ch]) ∧
            IsSpace space ∧ s' = t.past (space ++ [ch]) := by
  rw [optionalDeclarations, bind_eq_ok_iff] at hOk
  obtain ⟨⟨next, _⟩, _, hNext, hOk⟩ := hOk
  obtain ⟨encoding, t, space, hEncoding, hReaches, hReads, hSpace, rfl, rfl⟩ := reaches_of_optionalEncoding hNext
  split at hOk
  · rename_i hFound
    rw [Bool.and_eq_true, decide_eq_true_eq] at hFound
    obtain ⟨hSpaced, hFirst⟩ := hFound
    obtain rfl : next = 0x73 := hFirst
    have hNonempty : space ≠ [] := by
      rintro rfl
      cases hSpaced
    obtain ⟨_, _, hStandalone, hNext⟩ := bind_eq_ok_iff.mp hOk
    obtain ⟨a, hPart, hLater⟩ := reaches_of_standaloneDeclaration hReads hSpace hNonempty hStandalone
    obtain ⟨space, hReads, hSpace, -, rfl⟩ := read_nextAfterSpace_eq_ok_iff.mp hNext
    refine ⟨encoding, some a, _, space, hEncoding, ?_, hReaches.trans hLater, hReads, hSpace, rfl⟩
    rintro _ ⟨⟩
    exact hPart
  · obtain ⟨rfl, rfl⟩ := pure_eq_ok_iff.mp hOk
    refine ⟨encoding, none, t, space, hEncoding, nofun, ?_, hReads, hSpace, rfl⟩
    rw [← List.append_nil (optionalText encoding)] at hReaches
    exact hReaches

theorem reaches_of_declaration {letters : Chars} (hDepth : s.depth = -1) (hSpace : IsSpace space)
    (hNonempty : space ≠ []) (hText : s.cursor.Reads (space ++ [ch]))
    (hLetters : Matches Instruction.reserved letters)
    (hOk : declaration ch (s.past (space ++ [ch])) = .ok u s') :
    ∃ (d : Declaration) (after : Chars), d.Tolerated ∧ d.letters = letters ∧ IsSpace after ∧
      s.Reaches (d.rest ++ (after ++ [CodePoint.lessThan])) s' := by
  simp only [declaration, bind_eq_ok_iff, versionDeclaration_eq_ok_iff hDepth hSpace hNonempty hText,
    require_eq_ok_iff, decide_eq_true_eq, read_nextAfterSpace_eq_ok_iff] at hOk
  obtain ⟨_, _, ⟨version, hVersion, rfl, hReads, rfl⟩, next, _, hOptional, _, _, ⟨hQuestion, rfl⟩, _, _, hSkip,
    _, _, ⟨rfl, rfl⟩, last, _, ⟨after, hAfter, hAfterSpace, -, rfl⟩, hLast, rfl⟩ := hOk
  obtain rfl : last = CodePoint.lessThan := hLast
  obtain rfl : next = CodePoint.question := hQuestion
  obtain ⟨encoding, standalone, t, space, hEncoding, hStandalone, hReaches, hEnd, hEndSpace, rfl⟩ :=
    reaches_of_optionalDeclarations hOptional
  obtain ⟨hGreater, rfl⟩ := read_skip_eq_ok_true_iff.mp hSkip
  refine ⟨⟨letters, version, encoding, standalone, space⟩, after,
    ⟨hLetters, hVersion, hEncoding, hStandalone, hEndSpace⟩, rfl, hAfterSpace, ?_⟩
  obtain ⟨hValue, hLength⟩ := isAscii_of_isVersion hVersion.value
  have hName : IsAscii version.name ∧ version.name.length ≤ Token.maxLength := by
    rw [hVersion.name]
    unfold IsAscii
    decide
  have hVersionAscii : IsAscii version.text := by
    have hAll := isAscii_append.mpr ⟨isAscii_opening hSpace hName.1 hVersion.binding,
      isAscii_append.mpr ⟨hValue, isAscii_quote hVersion.binding.quote⟩⟩
    rwa [← text_part] at hAll
  have hFirst : s.Reaches version.text (s.pastPart version) :=
    Lexer.reaches_add hVersionAscii hReads (Declaration.layout_part (textFits_of_isAscii hName.1 hName.2)
      (textFits_of_isAscii hValue (hLength ▸ by decide)))
  have hClosing : IsAscii [CodePoint.question] ∧ IsAscii [CodePoint.greaterThan] ∧
      IsAscii [CodePoint.lessThan] := by
    unfold IsAscii
    decide
  have hAll := (((hFirst.trans hReaches).past
    (isAscii_append.mpr ⟨isAscii_of_isSpace hEndSpace, hClosing.1⟩) hEnd).past hClosing.2.1 hGreater).past
      (isAscii_append.mpr ⟨isAscii_of_isSpace hAfterSpace, hClosing.2.2⟩) hAfter
  simpa [Declaration.rest] using hAll

def pastOptional (s : Lexer) (a? : Option Attribute) : Lexer :=
  (s.past (optionalText a?)).add (Declaration.optionalTokens s.cursor.encoding s.cursor.offset a?)

theorem pastOptional_none : pastOptional s none = s :=
  Lexer.add_nil

theorem exists_head_of_part {a : Attribute} {name : String} {P : Chars → Prop} {first : CodePoint} {rest : Chars}
    (hPart : Declaration.Part name P a) (hName : CodePoint.ofText name = first :: rest) :
    ∃ more, a.text = a.space ++ first :: more := by
  rw [Attribute.text, hPart.name, hName]
  exact ⟨_, rfl⟩

theorem reads_first_of_part {a : Attribute} {name : String} {P : Chars → Prop} {first : CodePoint} {rest : Chars}
    (hPart : Declaration.Part name P a) (hName : CodePoint.ofText name = first :: rest)
    (hReads : s.cursor.Reads a.text) : s.cursor.Reads (a.space ++ [first]) := by
  obtain ⟨more, hSplit⟩ := exists_head_of_part hPart hName
  rw [hSplit, ← List.singleton_append, ← List.append_assoc] at hReads
  exact (Cursor.reads_append.mp hReads).1

theorem optionalEncoding_of_reads {encoding : Option Attribute} (hDepth : s.depth = -1)
    (hUtf8 : s.cursor.encoding = .utf8)
    (hEncoding : ∀ a, encoding = some a →
      Declaration.Part "encoding" Declaration.IsLabel a ∧ Declaration.IsUtf8 a.binding.value)
    (hReads : s.cursor.Reads (optionalText encoding ++ (space ++ [ch]))) (hSpace : IsSpace space)
    (hOther : CodePoint.isSpace ch = false) (hNone : ch ≠ 0x65) :
    optionalEncoding s = .ok (ch, !space.isEmpty) ((pastOptional s encoding).past (space ++ [ch])) := by
  rw [optionalEncoding, bind_eq_ok_iff]
  cases encoding with
  | none =>
    refine ⟨(ch, !space.isEmpty), s.past (space ++ [ch]),
      read_nextSpaced_eq_ok_iff.mpr ⟨space, hReads, hSpace, hOther, rfl, rfl⟩, ?_⟩
    rw [if_neg (by simp [hNone]), pastOptional_none]
    rfl
  | some a =>
    obtain ⟨hPart, hLabel⟩ := hEncoding a rfl
    obtain ⟨hText, hAfter⟩ := Cursor.reads_append.mp hReads
    have hFirst : s.cursor.Reads (a.space ++ [0x65]) := reads_first_of_part hPart rfl hText
    have hSpaced : (!a.space.isEmpty) = true := by
      rw [Bool.not_eq_true', List.isEmpty_eq_false_iff]
      exact hPart.nonempty
    refine ⟨(0x65, true), _,
      read_nextSpaced_eq_ok_iff.mpr ⟨a.space, hFirst, hPart.space, by decide, hSpaced.symm, rfl⟩, ?_⟩
    rw [if_pos (by decide), bind_eq_ok_iff]
    exact ⟨(), _, encodingDeclaration_of_reads hFirst hDepth hUtf8 hPart hLabel rfl hText,
      read_nextSpaced_eq_ok_iff.mpr ⟨space, hAfter, hSpace, hOther, rfl, rfl⟩⟩

theorem optionalDeclarations_of_reads {encoding standalone : Option Attribute} (hDepth : s.depth = -1)
    (hUtf8 : s.cursor.encoding = .utf8)
    (hEncoding : ∀ a, encoding = some a →
      Declaration.Part "encoding" Declaration.IsLabel a ∧ Declaration.IsUtf8 a.binding.value)
    (hStandalone : ∀ a, standalone = some a → Declaration.Part "standalone" Declaration.IsAnswer a)
    (hReads : s.cursor.Reads (optionalText encoding ++ (optionalText standalone ++
      (space ++ [CodePoint.question])))) (hSpace : IsSpace space) :
    optionalDeclarations s = .ok CodePoint.question
      ((pastOptional (pastOptional s encoding) standalone).past (space ++ [CodePoint.question])) := by
  rw [optionalDeclarations, bind_eq_ok_iff]
  cases standalone with
  | none =>
    refine ⟨_, _, optionalEncoding_of_reads hDepth hUtf8 hEncoding hReads hSpace (by decide) (by decide), ?_⟩
    have hQuestion : decide (CodePoint.question = 0x73) = false := rfl
    rw [hQuestion, Bool.and_false, pastOptional_none]
    rfl
  | some a =>
    have hPart := hStandalone a rfl
    obtain ⟨hEncodingText, hRest⟩ := Cursor.reads_append.mp hReads
    obtain ⟨hText, hAfter⟩ := Cursor.reads_append.mp hRest
    have hFirst : (pastOptional s encoding).cursor.Reads (a.space ++ [0x73]) := reads_first_of_part hPart rfl hText
    have hSpaced : (!a.space.isEmpty) = true := by
      rw [Bool.not_eq_true', List.isEmpty_eq_false_iff]
      exact hPart.nonempty
    refine ⟨(0x73, !a.space.isEmpty), _, optionalEncoding_of_reads hDepth hUtf8 hEncoding
      (Cursor.reads_append.mpr ⟨hEncodingText, hFirst⟩) hPart.space (by decide) (by decide), ?_⟩
    rw [hSpaced, if_pos (by decide), bind_eq_ok_iff]
    exact ⟨(), _, standaloneDeclaration_of_reads hFirst hDepth hPart rfl hText,
      read_nextAfterSpace_eq_ok_iff.mpr ⟨space, hAfter, hSpace, by decide, rfl⟩⟩

def pastDeclaration (s : Lexer) (d : Declaration) (after : Chars) : Lexer :=
  (pastOptional (pastOptional (s.pastPart d.version) d.encoding) d.standalone).past
    (d.space ++ [CodePoint.question, CodePoint.greaterThan] ++ (after ++ [CodePoint.lessThan]))

theorem declaration_of_reads {d : Declaration} {after : Chars} (hDepth : s.depth = -1)
    (hUtf8 : s.cursor.encoding = .utf8) (hText : s.cursor.Reads (d.version.space ++ [ch]))
    (hWell : d.Caseless) (hLabel : ∀ a, d.encoding = some a → Declaration.IsUtf8 a.binding.value)
    (hReads : s.cursor.Reads (d.rest ++ (after ++ [CodePoint.lessThan]))) (hAfter : IsSpace after) :
    declaration ch (s.past (d.version.space ++ [ch])) = .ok () (pastDeclaration s d after) := by
  have hSplit : d.rest ++ (after ++ [CodePoint.lessThan]) = d.version.text ++ ((optionalText d.encoding ++
      (optionalText d.standalone ++ (d.space ++ [CodePoint.question]))) ++ ([CodePoint.greaterThan] ++
        (after ++ [CodePoint.lessThan]))) := by
    simp [Declaration.rest]
  rw [hSplit] at hReads
  obtain ⟨hVersion, hRest⟩ := Cursor.reads_append.mp hReads
  obtain ⟨hOptional, hEnd⟩ := Cursor.reads_append.mp hRest
  obtain ⟨hGreater, hLast⟩ := Cursor.reads_append.mp hEnd
  have hParts := optionalDeclarations_of_reads (s := s.pastPart d.version) (by exact hDepth)
    (Cursor.encoding_advance.trans hUtf8) (fun a ha => ⟨hWell.encoding a ha, hLabel a ha⟩) hWell.standalone
    (by exact hOptional) hWell.space
  simp only [declaration, bind_eq_ok_iff, require_eq_ok_iff, decide_eq_true_eq, read_nextAfterSpace_eq_ok_iff,
    versionDeclaration_eq_ok_iff hDepth hWell.version.space hWell.version.nonempty hText]
  refine ⟨(), _, ⟨d.version, hWell.version, rfl, hVersion, rfl⟩, _, _, hParts, (), _, ⟨rfl, rfl⟩, true, _,
    read_skip_eq_ok_true_iff.mpr ⟨?_, rfl⟩, (), _, ⟨rfl, rfl⟩, _, _, ⟨after, ?_, hAfter, by decide, rfl⟩, rfl, ?_⟩
  · simpa [Lexer.pastPart, pastOptional, ← Cursor.advance_append] using hGreater
  · simpa [Lexer.pastPart, pastOptional, ← Cursor.advance_append] using hLast
  · simp only [pastDeclaration, ← Lexer.past_append]
    simp

end

theorem pastDeclaration_eq {d : Declaration} {after : Chars} :
    pastDeclaration (s.past (CodePoint.lessThan :: CodePoint.question :: d.letters)) d after =
      (s.past ((Opening.declaration d after).text ++ [CodePoint.lessThan])).add
        ((Opening.declaration d after).tokens s.cursor.encoding s.cursor.offset) := by
  simp only [pastDeclaration, pastOptional, Lexer.pastPart, Lexer.add_past, Lexer.add_add, ← Lexer.past_append]
  congr 1
  · simp [Opening.text, Declaration.text]
  · simp [Opening.tokens, Declaration.tokens, Nat.add_assoc]

end Lex

def Grammar.Opening.IsUtf8 : Opening → Prop
  | .blank _ => True
  | .declaration d _ => ∀ a, d.encoding = some a → Declaration.IsUtf8 a.binding.value

namespace Lexer

def lastAt (s : Lexer) (place : Nat) : Lexer :=
  { s with cursor := { s.cursor with last := place } }

variable {s : Lexer} {language : Language} {r : Reading} {place : Nat}

theorem reads_lastAt {text : Chars} : (s.lastAt place).cursor.Reads text ↔ s.cursor.Reads text :=
  Cursor.reads_congr rfl rfl rfl rfl

theorem ends_lastAt {text : Chars} :
    ((s.lastAt place).cursor.advance text).Ends ↔ (s.cursor.advance text).Ends := by
  cases text with
  | nil => exact Iff.rfl
  | cons ch text =>
    have hAdvance : (s.lastAt place).cursor.advance (ch :: text) = s.cursor.advance (ch :: text) :=
      Cursor.advance_congr rfl rfl rfl rfl rfl (List.cons_ne_nil _ _)
    rw [hAdvance]

/-- What is to come does not depend on where the last character began. -/
theorem awaits_lastAt : (s.lastAt place).Awaits language r ↔ s.Awaits language r := by
  simp only [Awaits, reads_lastAt, ends_lastAt]
  rfl

end Lexer

namespace Lex
open Declaration (optionalText)
variable {s s' : Lexer}

theorem read_opensDeclaration_eq_ok_true_iff : read (Scan.orRewind Scan.opensDeclaration) s = .ok true s' ↔
    ∃ letters ch, s.cursor.Reads (CodePoint.question :: (letters ++ [ch])) ∧
      Matches Instruction.reserved letters ∧ CodePoint.isSpace ch = true ∧
        s' = s.past (CodePoint.question :: (letters ++ [ch])) := by
  have hOpens : ∀ c', Scan.orRewind Scan.opensDeclaration s.cursor = .ok true c' ↔
      Scan.opensDeclaration s.cursor = .ok true c' := by
    intro c'
    unfold Scan.orRewind
    split
    · rename_i h
      rw [h]
      simp
    · rfl
  simp only [read_eq_ok_iff, hOpens, Scan.opensDeclaration_eq_ok_iff]
  constructor
  · rintro ⟨_, ⟨letters, ch, hReads, hLetters, -, hSpace, rfl⟩ | ⟨h, -⟩, rfl⟩
    · exact ⟨letters, ch, hReads, hLetters, hSpace.symm, rfl⟩
    · cases h
  · rintro ⟨letters, ch, hReads, hLetters, hSpace, rfl⟩
    refine ⟨_, .inl ⟨letters, ch, hReads, hLetters, ?_, hSpace.symm, rfl⟩, rfl⟩
    rintro rfl
    exact absurd hSpace (by decide)

theorem read_opensDeclaration_eq_ok_false_iff :
    read (Scan.orRewind Scan.opensDeclaration) s = .ok false s' ↔
      ∃ c', Scan.opensDeclaration s.cursor = .ok false c' ∧ s' = s.lastAt c'.last := by
  rw [read_eq_ok_iff]
  unfold Scan.orRewind
  constructor
  · rintro ⟨_, hOk, rfl⟩
    split at hOk
    · rename_i c' hOpens
      cases hOk
      obtain ⟨text, rfl⟩ := Scan.exists_advance_of_opensDeclaration hOpens
      refine ⟨_, hOpens, ?_⟩
      simp [Lexer.lastAt]
    · rename_i hOther
      exact (hOther _ hOk).elim
  · rintro ⟨c', hOpens, rfl⟩
    obtain ⟨text, rfl⟩ := Scan.exists_advance_of_opensDeclaration hOpens
    rw [hOpens]
    refine ⟨_, rfl, ?_⟩
    simp [Lexer.lastAt]

theorem isAscii_lessThan : IsAscii [CodePoint.lessThan] := by
  unfold IsAscii
  decide

theorem isAscii_of_matches_reserved {letters : Chars} (hLetters : Matches Instruction.reserved letters) :
    IsAscii letters := by
  have hAll : ∀ choices ∈ Instruction.reserved, ∀ ch ∈ choices, ch < 0x80 := by decide
  intro ch hch
  obtain ⟨choices, hChoices, hMem⟩ := hLetters.exists_choices hch
  exact hAll choices hChoices ch hMem

/-- The first markup is that of the document itself, comes after space, or comes after a declaration. -/
theorem start_cases {phase : Phase} (hOk : start s = .ok phase s') : phase = .markup ∧
    ((s.cursor.Reads [CodePoint.lessThan] ∧ ∃ place, s' = (s.past [CodePoint.lessThan]).lastAt place) ∨
      (∃ space, IsSpace space ∧ s.cursor.Reads (space ++ [CodePoint.lessThan]) ∧
        s' = s.past (space ++ [CodePoint.lessThan])) ∨
      ∃ letters space first, Matches Instruction.reserved letters ∧ IsSpace space ∧ space ≠ [] ∧
        s.cursor.Reads (CodePoint.lessThan :: CodePoint.question :: letters) ∧
        (s.past (CodePoint.lessThan :: CodePoint.question :: letters)).cursor.Reads (space ++ [first]) ∧
        declaration first ((s.past (CodePoint.lessThan :: CodePoint.question :: letters)).past (space ++ [first])) =
          .ok () s') := by
  rw [start, bind_eq_ok_iff] at hOk
  obtain ⟨ch, _, hNext, hOk⟩ := hOk
  obtain ⟨hReads, rfl⟩ := read_next_eq_ok_iff.mp hNext
  split at hOk
  · subst ‹ch = _›
    obtain ⟨opens, _, hOpens, hOk⟩ := bind_eq_ok_iff.mp hOk
    cases opens with
    | false =>
      obtain ⟨c', -, rfl⟩ := read_opensDeclaration_eq_ok_false_iff.mp hOpens
      obtain ⟨rfl, rfl⟩ := pure_eq_ok_iff.mp hOk
      exact ⟨rfl, .inl ⟨hReads, _, rfl⟩⟩
    | true =>
      obtain ⟨letters, ch, hText, hLetters, hSpace, rfl⟩ := read_opensDeclaration_eq_ok_true_iff.mp hOpens
      rw [if_pos rfl] at hOk
      simp only [bind_eq_ok_iff, read_nextAfterSpace_eq_ok_iff] at hOk
      obtain ⟨first, _, ⟨more, hMore, hMoreSpace, -, rfl⟩, _, _, hDeclaration, hPure⟩ := hOk
      obtain ⟨rfl, rfl⟩ := pure_eq_ok_iff.mp hPure
      have hState : ((s.past [CodePoint.lessThan]).past (CodePoint.question :: (letters ++ [ch]))).past
          (more ++ [first]) = (s.past (CodePoint.lessThan :: CodePoint.question :: letters)).past
            ((ch :: more) ++ [first]) := by
        simp only [← Lexer.past_append]
        simp
      rw [hState] at hDeclaration
      have hSplit : CodePoint.question :: (letters ++ [ch]) = (CodePoint.question :: letters) ++ [ch] := rfl
      rw [hSplit, Cursor.reads_append] at hText
      rw [hSplit, Lexer.past_append] at hMore
      have hSpaceText : ((s.past [CodePoint.lessThan]).past (CodePoint.question :: letters)).cursor.Reads
          ([ch] ++ (more ++ [first])) := Cursor.reads_append.mpr ⟨hText.2, hMore⟩
      rw [← Lexer.past_append] at hSpaceText
      exact ⟨rfl, .inr (.inr ⟨letters, ch :: more, first, hLetters, List.forall_mem_cons.mpr ⟨hSpace, hMoreSpace⟩,
        List.cons_ne_nil _ _, Cursor.reads_cons.mpr ⟨hReads, hText.1⟩, hSpaceText, hDeclaration⟩)⟩
  · simp only [bind_eq_ok_iff, require_eq_ok_iff, read_nextAfterSpace_eq_ok_iff, decide_eq_true_eq,
      pure_eq_ok_iff] at hOk
    obtain ⟨_, _, ⟨hSpace, rfl⟩, last, _, ⟨more, hMore, hMoreSpace, -, rfl⟩, _, _, ⟨hLast, rfl⟩, rfl, rfl⟩ := hOk
    obtain rfl : last = CodePoint.lessThan := hLast
    refine ⟨rfl, .inr (.inl ⟨ch :: more, List.forall_mem_cons.mpr ⟨hSpace, hMoreSpace⟩,
      Cursor.reads_cons.mpr ⟨hReads, hMore⟩, ?_⟩)⟩
    rw [← Lexer.past_append]
    rfl

/-- Whatever a document starts with, it is an opening that is tolerated; the encoding stays as it is unless
this is a declaration. -/
theorem reaches_of_start {phase : Phase} (hDepth : s.depth = -1) (hOk : start s = .ok phase s') :
    phase = .markup ∧ ∃ (opening : Opening) (t : Lexer) (place : Nat), opening.Tolerated ∧
      s.Reaches (opening.text ++ [CodePoint.lessThan]) t ∧ s' = t.lastAt place ∧
      ∀ space, opening = .blank space → t.cursor.encoding = s.cursor.encoding := by
  obtain ⟨rfl, ⟨hReads, place, rfl⟩ | ⟨space, hSpace, hReads, rfl⟩ |
    ⟨letters, space, first, hLetters, hSpace, hNonempty, hReads, hText, hDeclaration⟩⟩ := start_cases hOk
  · exact ⟨rfl, .blank [], _, place, fun _ h => (List.not_mem_nil h).elim,
      Lexer.reaches_past isAscii_lessThan hReads, rfl, fun _ _ => Cursor.encoding_advance⟩
  · refine ⟨rfl, .blank space, s.past (space ++ [CodePoint.lessThan]), _, hSpace, ?_, rfl, ?_⟩
    · exact Lexer.reaches_past (isAscii_append.mpr ⟨isAscii_of_isSpace hSpace, isAscii_lessThan⟩) hReads
    · exact fun _ _ => Cursor.encoding_advance
  · have hOpening : IsAscii (CodePoint.lessThan :: CodePoint.question :: letters) :=
      isAscii_cons.mpr ⟨by decide, isAscii_cons.mpr ⟨by decide, isAscii_of_matches_reserved hLetters⟩⟩
    obtain ⟨d, after, hTolerated, rfl, hAfter, hReaches⟩ :=
      reaches_of_declaration (by exact hDepth) hSpace hNonempty hText hLetters hDeclaration
    refine ⟨rfl, .declaration d after, s', s'.cursor.last, ⟨hTolerated, hAfter⟩, ?_, rfl, nofun⟩
    have hAll := (Lexer.reaches_past hOpening hReads).trans hReaches
    simpa [Opening.text, Declaration.text, Declaration.rest] using hAll

/-- Space is read in any encoding; if there is none, no declaration may seem to come. -/
theorem start_of_blank {space : Chars} (hSpace : IsSpace space)
    (hNone : space = [] → ∃ c', Scan.opensDeclaration (s.past [CodePoint.lessThan]).cursor = .ok false c')
    (hReads : s.cursor.Reads (space ++ [CodePoint.lessThan])) :
    ∃ place, start s = .ok .markup ((s.past (space ++ [CodePoint.lessThan])).lastAt place) := by
  cases space with
  | nil =>
    obtain ⟨c', hOpens⟩ := hNone rfl
    refine ⟨c'.last, ?_⟩
    rw [start, bind_of_ok (read_next_eq_ok_iff.mpr ⟨hReads, rfl⟩), if_pos rfl,
      bind_of_ok (read_opensDeclaration_eq_ok_false_iff.mpr ⟨c', hOpens, rfl⟩)]
    rfl
  | cons ch space =>
    obtain ⟨hFirst, hRest⟩ := Cursor.reads_cons.mp hReads
    obtain ⟨hSpace, hSpaces⟩ := List.forall_mem_cons.mp hSpace
    have hOther : ch ≠ CodePoint.lessThan := by
      rintro rfl
      exact absurd hSpace (by decide)
    refine ⟨(s.past (ch :: (space ++ [CodePoint.lessThan]))).cursor.last, ?_⟩
    rw [start, bind_of_ok (read_next_eq_ok_iff.mpr ⟨hFirst, rfl⟩), if_neg hOther,
      bind_of_ok (require_eq_ok_iff (u := ()) |>.mpr ⟨hSpace, rfl⟩),
      bind_of_ok (read_nextAfterSpace_eq_ok_iff.mpr ⟨space, hRest, hSpaces, by decide, rfl⟩)]
    rfl

/-- What opens a declaration is read up to the first part of it. -/
theorem start_of_opens {letters space : Chars} {first : CodePoint} (hLetters : Matches Instruction.reserved letters)
    (hSpace : IsSpace space) (hNonempty : space ≠ []) (hOther : CodePoint.isSpace first = false)
    (hReads : s.cursor.Reads (CodePoint.lessThan :: CodePoint.question :: (letters ++ (space ++ [first])))) :
    start s = (do
      declaration first
      return Phase.markup)
        ((s.past (CodePoint.lessThan :: CodePoint.question :: letters)).past (space ++ [first])) := by
  -- The first space belongs to the opening of the declaration, the others are skipped.
  obtain ⟨ch, more, rfl⟩ := List.exists_cons_of_ne_nil hNonempty
  obtain ⟨hFirst, hMore⟩ := List.forall_mem_cons.mp hSpace
  have hSplit : CodePoint.lessThan :: CodePoint.question :: (letters ++ (ch :: more ++ [first])) =
      [CodePoint.lessThan] ++ (CodePoint.question :: (letters ++ [ch]) ++ (more ++ [first])) := by
    simp
  rw [hSplit, Cursor.reads_append, Cursor.reads_append] at hReads
  obtain ⟨hLess, hOpens, hRest⟩ := hReads
  have hState : ((s.past [CodePoint.lessThan]).past (CodePoint.question :: (letters ++ [ch]))).past
      (more ++ [first]) = (s.past (CodePoint.lessThan :: CodePoint.question :: letters)).past
        (ch :: more ++ [first]) := by
    simp only [← Lexer.past_append]
    simp
  rw [start, bind_of_ok (read_next_eq_ok_iff.mpr ⟨hLess, rfl⟩), if_pos rfl,
    bind_of_ok (read_opensDeclaration_eq_ok_true_iff.mpr ⟨letters, ch, hOpens, hLetters, hFirst, rfl⟩), if_pos rfl,
    bind_of_ok (read_nextAfterSpace_eq_ok_iff.mpr ⟨more, hRest, hMore, hOther, hState.symm⟩)]

/-- In UTF-8, any well-formed opening is read, whatever the case of its first letters; without a
declaration none may seem to come. -/
theorem start_of_reads {opening : Opening} (hDepth : s.depth = -1) (hUtf8 : s.cursor.encoding = .utf8)
    (hWell : opening.Caseless) (hLabel : opening.IsUtf8)
    (hBlank : opening = .blank [] → ∃ c', Scan.opensDeclaration (s.past [CodePoint.lessThan]).cursor = .ok false c')
    (hReads : s.cursor.Reads (opening.text ++ [CodePoint.lessThan])) :
    ∃ place, start s = .ok .markup (((s.past (opening.text ++ [CodePoint.lessThan])).add
      (opening.tokens s.cursor.encoding s.cursor.offset)).lastAt place) := by
  cases opening with
  | blank space =>
    rw [Opening.tokens, Lexer.add_nil]
    exact start_of_blank hWell (fun hNone => hBlank (congrArg Opening.blank hNone)) hReads
  | declaration d after =>
    obtain ⟨hDeclaration, hAfter⟩ := hWell
    have hSplit : (Opening.declaration d after).text ++ [CodePoint.lessThan] =
        (CodePoint.lessThan :: CodePoint.question :: d.letters) ++ (d.rest ++ (after ++ [CodePoint.lessThan])) := by
      simp [Opening.text, Declaration.text, Declaration.rest]
    rw [hSplit] at hReads
    obtain ⟨hLetters, hRest⟩ := Cursor.reads_append.mp hReads
    have hText : (s.past (CodePoint.lessThan :: CodePoint.question :: d.letters)).cursor.Reads
        (d.version.space ++ [0x76]) := by
      rw [Declaration.rest, List.append_assoc] at hRest
      exact reads_first_of_part hDeclaration.version rfl (Cursor.reads_append.mp hRest).1
    have hOpens := Cursor.reads_append.mpr ⟨hLetters, hText⟩
    refine ⟨((s.past ((Opening.declaration d after).text ++ [CodePoint.lessThan])).add
      ((Opening.declaration d after).tokens s.cursor.encoding s.cursor.offset)).cursor.last, ?_⟩
    rw [start_of_opens hDeclaration.letters hDeclaration.version.space hDeclaration.version.nonempty (by decide) hOpens,
      bind_of_ok (declaration_of_reads (by exact hDepth) (Cursor.encoding_advance.trans hUtf8) hText hDeclaration hLabel
        hRest hAfter), pastDeclaration_eq]
    rfl

end Lex
end XmlIndex
